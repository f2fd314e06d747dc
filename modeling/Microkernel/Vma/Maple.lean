import Microkernel.Vma.Area
import Mathlib.Logic.Function.Basic

/-! # The maple tree backend

`vma_maple.c`: a B+ tree in a static pool of 64 nodes over a static pool of 256 areas. A node has one
key less than it has places for children or areas, and the arrays have no check of their own, so every
access here names the index it uses: an index past the end is a fault. How many keys a node has room
for is a parameter, `MAPLE_MAX_PIVOTS` in the source.

* **`MapleNode`, `MapleState`** — a node with its arrays, and the two pools with their free lists.
* **`MapleFault`, `MapleM`** — what an access past an array is, and the computations that may come to one.
* **`mapleAdd`, `mapleRemove`, `mapleFind`** — the operations, with the loops of the descent and of the
  way up above them.
-/

namespace Microkernel.Vma

open Function (update)

/-- `MAPLE_NODE_SLOTS`. -/
def mapleNodeSlots : ℕ := 10

/-- `MAPLE_MAX_PIVOTS`. -/
def mapleMaxPivots : ℕ := mapleNodeSlots - 1

/-- `MAPLE_MAX_NODES`. -/
def mapleMaxNodes : ℕ := 64

/-- `MAPLE_MAX_VMAS`. -/
def mapleMaxVmas : ℕ := 256

/-- `SPLIT_MID`. -/
def splitMid : ℕ := mapleNodeSlots / 2

/-- What goes wrong in an execution whose behaviour C does not define, or in a descent that does not
end. -/
inductive MapleFault where
  /-- `pivots[i]` past the end. -/
  | pivotIndex (i : ℕ)
  /-- `children[i]` or `slots[i]` past the end. -/
  | slotIndex (i : ℕ)
  /-- `NULL` is dereferenced. -/
  | nullPointer
  /-- A string is taken for a pool entry. -/
  | badPointer
  /-- More rounds than there are nodes. -/
  | endless
  deriving DecidableEq, Repr

/-- `maple_node_t`. Nodes and areas are referred to by their pool index, `NULL` is `none`. -/
structure MapleNode where
  pivots : ℕ → U32
  /-- `nr_entries`. -/
  nrEntries : U8
  /-- `is_leaf`. -/
  isLeaf : Bool
  /-- The parent, or the next free node. -/
  parent : Option ℕ
  /-- The union of `children` and `slots`. -/
  slots : ℕ → Option ℕ

/-- The static data. -/
structure MapleState where
  /-- `g_node_pool`. -/
  nodes : ℕ → MapleNode
  /-- `g_node_free`. -/
  nodeFree : Option ℕ
  /-- `g_vma_pool`; the name of a free entry is the link to the next one. -/
  vmas : ℕ → VmArea
  /-- `g_vma_free`. -/
  vmaFree : Option ℕ
  /-- `g_maple_root`. -/
  root : Option ℕ
  /-- `g_count`. -/
  count : ℕ

/-- An execution of the backend's code. -/
abbrev MapleM := Except MapleFault

namespace MapleNode

/-- Read `pivots[i]`. -/
def getPivot (room : ℕ) (n : MapleNode) (i : ℕ) : MapleM U32 :=
  if i < room then .ok (n.pivots i) else .error (.pivotIndex i)

/-- Write `pivots[i]`. -/
def setPivot (room : ℕ) (n : MapleNode) (i : ℕ) (v : U32) : MapleM MapleNode :=
  if i < room then .ok { n with pivots := update n.pivots i v } else .error (.pivotIndex i)

/-- Read `children[i]` or `slots[i]`. -/
def getSlot (n : MapleNode) (i : ℕ) : MapleM (Option ℕ) :=
  if i < mapleNodeSlots then .ok (n.slots i) else .error (.slotIndex i)

/-- Write `children[i]` or `slots[i]`. -/
def setSlot (n : MapleNode) (i : ℕ) (v : Option ℕ) : MapleM MapleNode :=
  if i < mapleNodeSlots then .ok { n with slots := update n.slots i v } else .error (.slotIndex i)

/-- `(unsigned)(nr_entries - 1)`. -/
def lastEntry (n : MapleNode) : ℕ := (n.nrEntries.setWidth 32 - 1#32).toNat

end MapleNode

namespace MapleState

/-- Replace a node. -/
def setNode (s : MapleState) (p : ℕ) (n : MapleNode) : MapleState :=
  { s with nodes := update s.nodes p n }

/-- Replace an area. -/
def setVma (s : MapleState) (v : ℕ) (a : VmArea) : MapleState :=
  { s with vmas := update s.vmas v a }

end MapleState

/-! ### The pools -/

/-- `node_pool_init()`: each node's `parent` is the next node. -/
def nodePoolInit (s : MapleState) : MapleState :=
  { s with
    nodeFree := some 0
    nodes := fun i =>
      if i < mapleMaxNodes - 1 then { s.nodes i with parent := some (i + 1) }
      else if i = mapleMaxNodes - 1 then { s.nodes i with parent := none }
      else s.nodes i }

/-- `node_alloc()`. -/
def nodeAlloc (s : MapleState) : MapleState × Option ℕ :=
  match s.nodeFree with
  | none => (s, none)
  | some n =>
      let s := { s with nodeFree := (s.nodes n).parent }
      -- `mzero` clears the node it takes
      (s.setNode n ⟨fun _ => 0#32, 0#8, false, none, fun _ => none⟩, some n)

/-- `vma_pool_init()`: each entry's `name` points to the next entry. -/
def vmaPoolInit (s : MapleState) : MapleState :=
  { s with
    vmaFree := some 0
    vmas := fun i =>
      if i < mapleMaxVmas - 1 then { s.vmas i with name := .poolEntry (i + 1) }
      else if i = mapleMaxVmas - 1 then { s.vmas i with name := .null }
      else s.vmas i }

/-- A `const char*` cast to `vm_area_t*`. -/
def NamePtr.toEntry : NamePtr → MapleM (Option ℕ)
  | .null => .ok none
  | .poolEntry i => .ok (some i)
  | .str _ => .error .badPointer

/-- `vma_alloc()`. -/
def vmaAlloc (s : MapleState) : MapleM (MapleState × Option ℕ) :=
  match s.vmaFree with
  | none => .ok (s, none)
  | some v => do
      let next ← (s.vmas v).name.toEntry
      return ({ s with vmaFree := next }.setVma v VmArea.zero, some v)

/-- A `vm_area_t*` cast to `const char*`. -/
def NamePtr.ofEntry : Option ℕ → NamePtr
  | none => .null
  | some i => .poolEntry i

/-- `vma_free_entry(v)`. -/
def vmaFreeEntry (v : ℕ) (s : MapleState) : MapleState :=
  { s.setVma v { s.vmas v with name := NamePtr.ofEntry s.vmaFree } with vmaFree := some v }

section Functions
variable (room : ℕ)

/-! ### Leaves -/

/-- The loop of `leaf_find_slot`, `n` rounds before the end. -/
def leafFindSlotFrom (leaf : MapleNode) (start : U32) : ℕ → ℕ → MapleM ℕ
  | 0, _ => .ok leaf.nrEntries.toNat
  | n + 1, i => do
      let p ← leaf.getPivot room i
      if p ≥ start then .ok i else leafFindSlotFrom leaf start n (i + 1)

/-- `leaf_find_slot(leaf, start)`. -/
def leafFindSlot (leaf : MapleNode) (start : U32) : MapleM ℕ :=
  leafFindSlotFrom room leaf start leaf.nrEntries.toNat 0

/-- The loop of `leaf_insert_at`, which moves the entries from `pos` on up by one place. -/
def leafShiftUp (pos : ℕ) : ℕ → MapleNode → MapleM MapleNode
  | 0, leaf => .ok leaf
  | i + 1, leaf =>
      if i + 1 > pos then do
        let leaf ← leaf.setPivot room (i + 1) (← leaf.getPivot room i)
        let leaf ← leaf.setSlot (i + 1) (← leaf.getSlot i)
        leafShiftUp pos i leaf
      else .ok leaf

/-- `leaf_insert_at(leaf, pos, vma)`, where the area begins at `start`. -/
def leafInsertAt (leaf : MapleNode) (pos vma : ℕ) (start : U32) : MapleM MapleNode := do
  let leaf ← leafShiftUp room pos leaf.nrEntries.toNat leaf
  let leaf ← leaf.setPivot room pos start
  let leaf ← leaf.setSlot pos (some vma)
  return { leaf with nrEntries := leaf.nrEntries + 1#8 }

/-- The loop of `leaf_remove_at`, which moves the entries behind `i` down by one place. -/
def leafShiftDown : ℕ → ℕ → MapleNode → MapleM MapleNode
  | 0, _, leaf => .ok leaf
  | n + 1, i, leaf => do
      let leaf ← leaf.setPivot room i (← leaf.getPivot room (i + 1))
      let leaf ← leaf.setSlot i (← leaf.getSlot (i + 1))
      leafShiftDown n (i + 1) leaf

/-- `leaf_remove_at(leaf, pos)`. -/
def leafRemoveAt (leaf : MapleNode) (pos : ℕ) : MapleM MapleNode := do
  let leaf ← leafShiftDown room (leaf.lastEntry - pos) pos leaf
  let leaf := { leaf with nrEntries := leaf.nrEntries - 1#8 }
  -- the place that has become free is cleared
  let leaf ← leaf.setPivot room leaf.nrEntries.toNat 0#32
  leaf.setSlot leaf.nrEntries.toNat none

/-! ### Internal nodes -/

/-- The loop of `internal_find_child`, `n` rounds before the end. -/
def internalFindChildFrom (node : MapleNode) (addr : U32) : ℕ → ℕ → MapleM ℕ
  | 0, _ => .ok node.lastEntry
  | n + 1, i => do
      let p ← node.getPivot room i
      if addr < p then .ok i else internalFindChildFrom node addr n (i + 1)

/-- `internal_find_child(node, addr)`. The loops of `maple_add` that look for the place of a split key
are the same. -/
def internalFindChild (node : MapleNode) (addr : U32) : MapleM ℕ :=
  internalFindChildFrom room node addr node.lastEntry 0

/-- The first loop of `internal_insert_at`. -/
def internalShiftPivots (pos : ℕ) : ℕ → MapleNode → MapleM MapleNode
  | 0, node => .ok node
  | i + 1, node =>
      if i + 1 > pos then do
        let node ← node.setPivot room (i + 1) (← node.getPivot room i)
        internalShiftPivots pos i node
      else .ok node

/-- The second loop of `internal_insert_at`. -/
def internalShiftChildren (pos : ℕ) : ℕ → MapleNode → MapleM MapleNode
  | 0, node => .ok node
  | i + 1, node =>
      if i + 1 > pos + 1 then do
        let node ← node.setSlot (i + 1) (← node.getSlot i)
        internalShiftChildren pos i node
      else .ok node

/-- `internal_insert_at(node, pos, split_key, new_child)`. -/
def internalInsertAt (node pos : ℕ) (splitKey : U32) (newChild : ℕ) (s : MapleState) :
    MapleM MapleState := do
  let n ← internalShiftPivots room pos (s.nodes node).lastEntry (s.nodes node)
  let n ← n.setPivot room pos splitKey
  let n ← internalShiftChildren pos n.nrEntries.toNat n
  let n ← n.setSlot (pos + 1) (some newChild)
  let s := s.setNode node n
  -- the count is written last, after the parent of the new child
  let s := s.setNode newChild { s.nodes newChild with parent := some node }
  return s.setNode node { s.nodes node with nrEntries := (s.nodes node).nrEntries + 1#8 }

/-! ### Splits -/

/-- The loop of `split_leaf` from round `i` on, `n` rounds before the end. -/
def splitLeafMove : ℕ → ℕ → MapleNode → MapleNode → MapleM (MapleNode × MapleNode)
  | 0, _, leaf, newLeaf => .ok (leaf, newLeaf)
  | n + 1, i, leaf, newLeaf => do
      let newLeaf ← newLeaf.setPivot room i (← leaf.getPivot room (splitMid + i))
      let newLeaf ← newLeaf.setSlot i (← leaf.getSlot (splitMid + i))
      -- what has moved is cleared in the old leaf
      let leaf ← leaf.setPivot room (splitMid + i) 0#32
      let leaf ← leaf.setSlot (splitMid + i) none
      splitLeafMove n (i + 1) leaf newLeaf

/-- `split_leaf(leaf, new_leaf)`: the two halves and the key between them. -/
def splitLeaf (leaf newLeaf : MapleNode) : MapleM (MapleNode × MapleNode × U32) := do
  let newLeaf := { newLeaf with isLeaf := true }
  -- an `unsigned` difference of `uint8_t` values
  let moveCount := leaf.nrEntries.setWidth 32 - BitVec.ofNat 32 splitMid
  let (leaf, newLeaf) ← splitLeafMove room moveCount.toNat 0 leaf newLeaf
  let newLeaf := { newLeaf with nrEntries := moveCount.setWidth 8 }
  let leaf := { leaf with nrEntries := BitVec.ofNat 8 splitMid }
  return (leaf, newLeaf, ← newLeaf.getPivot room 0)

/-- The first loop of `split_internal`. -/
def splitMovePivots : ℕ → ℕ → MapleNode → MapleNode → MapleM (MapleNode × MapleNode)
  | 0, _, node, newNode => .ok (node, newNode)
  | n + 1, i, node, newNode => do
      let newNode ← newNode.setPivot room i (← node.getPivot room (splitMid + i))
      let node ← node.setPivot room (splitMid + i) 0#32
      splitMovePivots n (i + 1) node newNode

/-- The second loop of `split_internal`, which also tells the moved children their new parent. -/
def splitMoveChildren (node newNode : ℕ) : ℕ → ℕ → MapleState → MapleM MapleState
  | 0, _, s => .ok s
  | n + 1, i, s => do
      let child ← (s.nodes node).getSlot (splitMid + i)
      let s := s.setNode newNode (← (s.nodes newNode).setSlot i child)
      let s :=
        match child with
        | some c => s.setNode c { s.nodes c with parent := some newNode }
        | none => s
      let s := s.setNode node (← (s.nodes node).setSlot (splitMid + i) none)
      splitMoveChildren node newNode n (i + 1) s

/-- `split_internal(node, new_node)`: the state and the key that goes up. -/
def splitInternal (node newNode : ℕ) (s : MapleState) : MapleM (MapleState × U32) := do
  let s := s.setNode newNode { s.nodes newNode with isLeaf := false }
  -- the pivot before the middle goes up and is cleared at the end
  let upKey ← (s.nodes node).getPivot room (splitMid - 1)
  let nrEntries := (s.nodes node).nrEntries.setWidth 32
  let movePivots := nrEntries - 1#32 - BitVec.ofNat 32 splitMid
  let (n, n') ← splitMovePivots room movePivots.toNat 0 (s.nodes node) (s.nodes newNode)
  let s := (s.setNode node n).setNode newNode n'
  -- one child more than pivots
  let moveChildren := nrEntries - BitVec.ofNat 32 splitMid
  let s ← splitMoveChildren node newNode moveChildren.toNat 0 s
  let s := s.setNode newNode { s.nodes newNode with nrEntries := moveChildren.setWidth 8 }
  let s := s.setNode node { s.nodes node with nrEntries := BitVec.ofNat 8 splitMid }
  let s := s.setNode node (← (s.nodes node).setPivot room (splitMid - 1) 0#32)
  return (s, upKey)

/-! ### The operations -/

/-- `maple_init()`. -/
def mapleInit (s : MapleState) : MapleState :=
  let (s, root) := nodeAlloc (vmaPoolInit (nodePoolInit s))
  let s := { s with root := root }
  let s :=
    match root with
    | some r => s.setNode r { s.nodes r with isLeaf := true, parent := none }
    | none => s
  { s with count := 0 }

/-- The descent from a node to a leaf; `none` when a child is `NULL`. -/
def mapleDescend (s : MapleState) (addr : U32) : ℕ → ℕ → MapleM (Option ℕ)
  | 0, _ => .error .endless
  | n + 1, node =>
      if (s.nodes node).isLeaf then .ok (some node)
      else do
        let idx ← internalFindChild room (s.nodes node) addr
        match ← (s.nodes node).getSlot idx with
        | some child => mapleDescend s addr n child
        | none => .ok none

/-- The overlap check of `maple_add` in a leaf from entry `i` on, `n` entries before the end. -/
def leafOverlaps (s : MapleState) (leaf : MapleNode) (start stop : U32) : ℕ → ℕ → MapleM Bool
  | 0, _ => .ok false
  | n + 1, i => do
      match ← leaf.getSlot i with
      | none => .error .nullPointer
      | some v =>
          if start < (s.vmas v).stop ∧ (s.vmas v).start < stop then .ok true
          else leafOverlaps s leaf start stop n (i + 1)

/-- The loop of `maple_add` that inserts a split key and the node behind it above `child`. -/
def mapleInsertUp : ℕ → ℕ → ℕ → U32 → MapleState → MapleM MapleState
  | 0, _, _, _, _ => .error .endless
  | n + 1, child, newChild, splitKey, s =>
      match (s.nodes child).parent with
      | none => do
          -- the root has been split: a new root above both halves
          let (s, newRoot) := nodeAlloc s
          match newRoot with
          -- no node is left: the loop breaks off and the key is lost
          | none => return s
          | some r =>
              let root := { s.nodes r with isLeaf := false, nrEntries := 2#8 }
              let root ← root.setPivot room 0 splitKey
              let root ← root.setSlot 0 (some child)
              let root ← root.setSlot 1 (some newChild)
              let s := s.setNode r { root with parent := none }
              let s := s.setNode child { s.nodes child with parent := some r }
              let s := s.setNode newChild { s.nodes newChild with parent := some r }
              return { s with root := some r }
      | some parent =>
          -- the parent has room for the key
          if (s.nodes parent).nrEntries.toNat < mapleNodeSlots then do
            let pos ← internalFindChild room (s.nodes parent) splitKey
            internalInsertAt room parent pos splitKey newChild s
          else do
            -- it is full: split it, and go on with the key that comes out
            let (s, newParent) := nodeAlloc s
            match newParent with
            | none => return s
            | some newParent =>
                let (s, parentUpKey) ← splitInternal room parent newParent s
                let half := if splitKey < parentUpKey then parent else newParent
                let pos ← internalFindChild room (s.nodes half) splitKey
                let s ← internalInsertAt room half pos splitKey newChild s
                mapleInsertUp n parent newParent parentUpKey s

/-- Insertion of an allocated area into a leaf, the part of `maple_add` after the checks. -/
def mapleInsert (leaf vma : ℕ) (start : U32) (s : MapleState) : MapleM (MapleState × Int) :=
  if (s.nodes leaf).nrEntries.toNat < mapleNodeSlots then do
    let pos ← leafFindSlot room (s.nodes leaf) start
    let n ← leafInsertAt room (s.nodes leaf) pos vma start
    return ({ s.setNode leaf n with count := s.count + 1 }, 0)
  else do
    let (s, newLeaf) := nodeAlloc s
    match newLeaf with
    -- no node is left: the area goes back to its pool
    | none => return (vmaFreeEntry vma s, -1)
    | some newLeaf =>
        let (n, n', upKey) ← splitLeaf room (s.nodes leaf) (s.nodes newLeaf)
        let s := (s.setNode leaf n).setNode newLeaf n'
        let half := if start < upKey then leaf else newLeaf
        let pos ← leafFindSlot room (s.nodes half) start
        let s := s.setNode half (← leafInsertAt room (s.nodes half) pos vma start)
        -- up to the root, one level a round
        let s ← mapleInsertUp room mapleMaxNodes leaf newLeaf upKey s
        return ({ s with count := s.count + 1 }, 0)

/-- `maple_add(start, end, flags, name)`. -/
def mapleAdd (start stop flags : U32) (name : NamePtr) (s : MapleState) :
    MapleM (MapleState × Int) :=
  if s.count ≥ mapleMaxVmas then .ok (s, -1)
  else if start ≥ stop then .ok (s, -1)
  else if ¬ start.PageAligned ∨ ¬ stop.PageAligned then .ok (s, -1)
  else
    match s.root with
    | none => .ok (s, -1)
    | some root => do
        match ← mapleDescend room s start (mapleMaxNodes + 1) root with
        | none => .error .nullPointer
        | some leaf =>
            -- only the areas of this leaf are compared
            if ← leafOverlaps s (s.nodes leaf) start stop (s.nodes leaf).nrEntries.toNat 0 then
              return (s, -1)
            else do
              let (s, vma) ← vmaAlloc s
              match vma with
              | none => return (s, -1)
              | some vma => mapleInsert room leaf vma start (s.setVma vma ⟨start, stop, flags, name⟩)

/-- The search of `maple_remove` in a leaf from entry `i` on, `n` entries before the end: the index of
the entry and its area. -/
def leafFindStart (s : MapleState) (leaf : MapleNode) (start : U32) : ℕ → ℕ → MapleM (Option (ℕ × ℕ))
  | 0, _ => .ok none
  | n + 1, i => do
      match ← leaf.getSlot i with
      | some v =>
          if (s.vmas v).start = start then .ok (some (i, v))
          else leafFindStart s leaf start n (i + 1)
      | none => leafFindStart s leaf start n (i + 1)

/-- `maple_remove(start)`. -/
def mapleRemove (start : U32) (s : MapleState) : MapleM (MapleState × Int) :=
  match s.root with
  | none => .ok (s, -1)
  | some root => do
      match ← mapleDescend room s start (mapleMaxNodes + 1) root with
      | none => return (s, -1)
      | some leaf =>
          match ← leafFindStart s (s.nodes leaf) start (s.nodes leaf).nrEntries.toNat 0 with
          | none => return (s, -1)
          | some (i, v) =>
              -- the leaf is neither merged nor freed when it becomes empty
              let s := vmaFreeEntry v s
              let n ← leafRemoveAt room (s.nodes leaf) i
              return ({ s.setNode leaf n with count := s.count - 1 }, 0)

/-- The search of `maple_find` in a leaf from entry `i` on, `n` entries before the end. -/
def leafFindAddr (s : MapleState) (leaf : MapleNode) (addr : U32) : ℕ → ℕ → MapleM (Option VmArea)
  | 0, _ => .ok none
  | n + 1, i => do
      match ← leaf.getSlot i with
      | some v =>
          if addr ≥ (s.vmas v).start ∧ addr < (s.vmas v).stop then .ok (some (s.vmas v))
          else leafFindAddr s leaf addr n (i + 1)
      | none => leafFindAddr s leaf addr n (i + 1)

/-- `maple_find(addr)`. -/
def mapleFind (addr : U32) (s : MapleState) : MapleM (Option VmArea) :=
  match s.root with
  | none => .ok none
  | some root => do
      match ← mapleDescend room s addr (mapleMaxNodes + 1) root with
      | none => return none
      | some leaf => leafFindAddr s (s.nodes leaf) addr (s.nodes leaf).nrEntries.toNat 0

/-- One call, with its answer. -/
def mapleCall (s : MapleState) : VmaCall → MapleM (MapleState × VmaAnswer)
  | .add start stop flags name => do
      let (s, r) ← mapleAdd room start stop flags name s
      return (s, .status r)
  | .remove start => do
      let (s, r) ← mapleRemove room start s
      return (s, .status r)
  | .find addr => do
      let a ← mapleFind room addr s
      return (s, .area a)
  | .count => .ok (s, .count s.count)

/-- The calls made in order from a state: the state they leave, or the first fault. -/
def mapleRun (s : MapleState) : List VmaCall → MapleM MapleState
  | [] => .ok s
  | call :: calls => do
      let (s, _) ← mapleCall room s call
      mapleRun s calls

end Functions

end Microkernel.Vma
