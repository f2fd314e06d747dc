import Microkernel.Lib.Machine
import Microkernel.Pmm.MemoryMap
import Mathlib.Logic.Function.Basic

/-! # The buddy allocator

`pmm_buddy.c`: the pages of one zone are kept in blocks of `2 ^ order` pages; for each order a circular
list holds the free blocks. The list nodes are embedded in the page descriptors, so a node pointer is a
list sentinel or a page. The descriptors stand here as one map for each of their fields.

* **`NodePtr`, `FreeNode`, `BuddyState`** — a pointer to a list node, the node, and `g_zone` with
  `g_buddy_ready`.
* **`listAddTail`, `listDel`, `listPop`** — the intrusive lists, as the source links them.
* **`buddyAlloc`, `buddyFree`** — splitting from a larger order down, and merging with free buddies
  upwards.
* **`buddyInitZone`, `buddyTile`** — the zone cut into the largest blocks that fit, from its start on.
-/

namespace Microkernel.Pmm

open Function (update)

/-- `free_node_t*`: `NULL`, the sentinel of a free list or the node of a page. -/
inductive NodePtr where
  | null
  | head (order : ℕ)
  | page (idx : U32)
  deriving DecidableEq

/-- `free_node_t`. -/
structure FreeNode where
  prev : NodePtr
  next : NodePtr

/-- The nodes in memory. -/
abbrev FreeNodes := NodePtr → FreeNode

/-- `BUDDY_MAX_ORDER`. -/
def buddyMaxOrder : ℕ := 10

/-- `g_zone` and `g_buddy_ready`. -/
structure BuddyState where
  /-- `base_phys`. -/
  basePhys : U32
  /-- `total_pages`. -/
  totalPages : U32
  /-- `pages`: the virtual address of the page descriptors. -/
  pages : U32
  /-- The sentinels in `free_list` and `node` of the descriptors. -/
  nodes : FreeNodes
  /-- `order` of the descriptors. -/
  order : U32 → U8
  /-- `is_free` of the descriptors. -/
  isFree : U32 → U8
  /-- `free_count`. -/
  freeCount : ℕ → U32
  /-- `total_free`. -/
  totalFree : U32
  /-- `g_buddy_ready`. -/
  ready : Bool

/-! ### List operations -/

namespace FreeNodes

/-- `p->prev = q`. -/
def setPrev (nodes : FreeNodes) (p q : NodePtr) : FreeNodes :=
  update nodes p { nodes p with prev := q }

/-- `p->next = q`. -/
def setNext (nodes : FreeNodes) (p q : NodePtr) : FreeNodes :=
  update nodes p { nodes p with next := q }

end FreeNodes

/-- `list_init(head)`. -/
def listInit (head : NodePtr) (nodes : FreeNodes) : FreeNodes :=
  (nodes.setPrev head head).setNext head head

/-- `list_empty(head)`. -/
def listEmpty (head : NodePtr) (nodes : FreeNodes) : Prop := (nodes head).next = head

instance (head : NodePtr) (nodes : FreeNodes) : Decidable (listEmpty head nodes) :=
  inferInstanceAs (Decidable (_ = _))

/-- `list_add_tail(node, head)`. -/
def listAddTail (node head : NodePtr) (nodes : FreeNodes) : FreeNodes :=
  let nodes := nodes.setPrev node (nodes head).prev
  let nodes := nodes.setNext node head
  let nodes := nodes.setNext (nodes head).prev node
  nodes.setPrev head node

/-- `list_del(node)`. -/
def listDel (node : NodePtr) (nodes : FreeNodes) : FreeNodes :=
  let nodes := nodes.setNext (nodes node).prev (nodes node).next
  let nodes := nodes.setPrev (nodes node).next (nodes node).prev
  let nodes := nodes.setPrev node node
  nodes.setNext node node

/-- `list_pop(head)`. -/
def listPop (head : NodePtr) (nodes : FreeNodes) : FreeNodes × NodePtr :=
  if listEmpty head nodes then (nodes, .null)
  else (listDel (nodes head).next nodes, (nodes head).next)

/-! ### Page numbers -/

/-- `index_to_phys(idx)`. -/
def indexToPhys (s : BuddyState) (idx : U32) : U32 := s.basePhys + idx * pageSize

/-- `phys_to_index(phys)`. -/
def physToIndex (s : BuddyState) (phys : U32) : U32 := (phys - s.basePhys) / pageSize

/-- `calc_buddy_index(idx, order)`. -/
def calcBuddyIndex (idx : U32) (order : ℕ) : U32 := idx ^^^ 1#32 <<< order

/-! ### Blocks -/

/-- `buddy_add_free(idx, order)`. -/
def buddyAddFree (idx : U32) (order : ℕ) (s : BuddyState) : BuddyState :=
  { s with
    order := update s.order idx (BitVec.ofNat 8 order)
    isFree := update s.isFree idx 1#8
    nodes := listAddTail (.page idx) (.head order) s.nodes
    freeCount := update s.freeCount order (s.freeCount order + 1#32)
    totalFree := s.totalFree + 1#32 <<< order }

/-- `buddy_remove_free(idx, order)`. -/
def buddyRemoveFree (idx : U32) (order : ℕ) (s : BuddyState) : BuddyState :=
  { s with
    nodes := listDel (.page idx) s.nodes
    isFree := update s.isFree idx 0#8
    freeCount := update s.freeCount order (s.freeCount order - 1#32)
    totalFree := s.totalFree - 1#32 <<< order }

/-- The first loop of `buddy_alloc` from `cur` on, `n` orders before its end. -/
def buddyFindOrder (s : BuddyState) : ℕ → ℕ → ℕ
  | 0, cur => cur
  | n + 1, cur => if listEmpty (.head cur) s.nodes then buddyFindOrder s n (cur + 1) else cur

/-- The splitting loop of `buddy_alloc` from order `cur` down to `order`. -/
def buddySplit (idx : U32) (order : ℕ) : ℕ → BuddyState → BuddyState
  | 0, s => s
  | cur + 1, s =>
      if cur + 1 > order then buddySplit idx order cur (buddyAddFree (idx + 1#32 <<< cur) cur s)
      else s

/-- `buddy_alloc(order)`, where `0xFFFFFFFF` is `UINT32_MAX`. A node that is not the node of a page has
no page number: `none`. -/
def buddyAlloc (order : ℕ) (s : BuddyState) : Option (BuddyState × U32) :=
  let cur := buddyFindOrder s (buddyMaxOrder + 1 - order) order
  if cur > buddyMaxOrder then some (s, 0xFFFFFFFF#32)
  else
    match listPop (.head cur) s.nodes with
    | (nodes, .page idx) =>
        let s := { s with
          nodes := nodes
          isFree := update s.isFree idx 0#8
          freeCount := update s.freeCount cur (s.freeCount cur - 1#32)
          totalFree := s.totalFree - 1#32 <<< cur }
        -- the upper halves go back to their lists
        let s := buddySplit idx order cur s
        some ({ s with order := update s.order idx (BitVec.ofNat 8 order) }, idx)
    -- the list holds a sentinel where a page should be
    | _ => none

/-- The loop of `buddy_free`, `n` orders below the largest: the merged block, and the state without the
buddies it took in. -/
def buddyMerge : ℕ → U32 → ℕ → BuddyState → U32 × ℕ × BuddyState
  | 0, idx, order, s => (idx, order, s)
  | n + 1, idx, order, s =>
      let bi := calcBuddyIndex idx order
      -- the buddy lies outside the zone
      if bi ≥ s.totalPages then (idx, order, s)
      -- the buddy is in use, or only a part of it is free
      else if s.isFree bi = 0#8 ∨ s.order bi ≠ BitVec.ofNat 8 order then (idx, order, s)
      else
        -- the merged block begins at the lower of the two
        buddyMerge n (idx &&& ~~~ (1#32 <<< order)) (order + 1) (buddyRemoveFree bi order s)

/-- `buddy_free(idx, order)`. -/
def buddyFree (idx : U32) (order : ℕ) (s : BuddyState) : BuddyState :=
  let r := buddyMerge (buddyMaxOrder - order) idx order s
  buddyAddFree r.1 r.2.1 r.2.2

/-! ### The backend -/

/-- `pmm_buddy_alloc_page()`. -/
def pmmBuddyAllocPage (s : BuddyState) : Option (BuddyState × U32) :=
  if ¬ s.ready then some (s, 0#32)
  else if s.totalFree = 0#32 then some (s, 0#32)
  else
    -- `UINT32_MAX` becomes `NULL`
    (buddyAlloc 0 s).map fun r =>
      if r.2 = 0xFFFFFFFF#32 then (r.1, 0#32) else (r.1, indexToPhys r.1 r.2)

/-- `pmm_buddy_free_page(page)`. -/
def pmmBuddyFreePage (page : U32) (s : BuddyState) : BuddyState :=
  if ¬ s.ready ∨ page = 0#32 then s
  else if page &&& (pageSize - 1#32) ≠ 0#32 then s
  else if page < s.basePhys then s
  else if physToIndex s page ≥ s.totalPages then s
  -- a double free is ignored
  else if s.isFree (physToIndex s page) ≠ 0#8 then s
  -- the order is that of the block when it was given out
  else buddyFree (physToIndex s page) (s.order (physToIndex s page)).toNat s

/-! ### Initialisation -/

/-- The inner loop of the tiling, from order `o` down: the largest order whose block starts at `idx` and
ends in the zone. -/
def buddyLargestOrder (managedPages idx : U32) : ℕ → ℕ
  | 0 => 0
  | o + 1 =>
      let block := 1#32 <<< (o + 1)
      if idx &&& (block - 1#32) = 0#32 ∧ idx + block ≤ managedPages then o + 1
      else buddyLargestOrder managedPages idx o

/-- The loop that puts all pages into the free lists, from `idx` on; `none` when `n` rounds are not
enough. -/
def buddyTile (managedPages : U32) : ℕ → U32 → BuddyState → Option BuddyState
  | 0, _, _ => none
  | n + 1, idx, s =>
      if idx < managedPages then
        let order := buddyLargestOrder managedPages idx buddyMaxOrder
        buddyTile managedPages n (idx + 1#32 <<< order) (buddyAddFree idx order s)
      else some s

/-- `memzero(&g_zone)`, and the loop that initialises the sentinels. -/
def buddyReset (s : BuddyState) : BuddyState :=
  { s with
    basePhys := 0#32
    totalPages := 0#32
    pages := 0#32
    nodes := (List.range (buddyMaxOrder + 1)).foldl (fun nodes i => listInit (.head i) nodes) s.nodes
    freeCount := fun _ => 0#32
    totalFree := 0#32
    ready := false }

/-- Steps 3 and 4 of `pmm_buddy_init`: the zone, its cleared page descriptors, and all pages in the free
lists. -/
def buddyInitZone (regionStart managedStart managedPages : U32) (s : BuddyState) : Option BuddyState :=
  let s := { s with
    basePhys := managedStart
    totalPages := managedPages
    pages := physToVirt regionStart
    totalFree := 0#32
    nodes := fun p =>
      match p with
      | .page i => if i < managedPages then ⟨.null, .null⟩ else s.nodes (.page i)
      | p => s.nodes p
    order := fun i => if i < managedPages then 0#8 else s.order i
    isFree := fun i => if i < managedPages then 0#8 else s.isFree i }
  (buddyTile managedPages (managedPages.toNat + 1) 0#32 s).map fun s => { s with ready := true }

/-- The self-test at the end of `pmm_buddy_init`. -/
def buddySelftest (s : BuddyState) : Option BuddyState :=
  (pmmBuddyAllocPage s).bind fun r₁ =>
    (pmmBuddyAllocPage r₁.1).map fun r₂ =>
      let p₁ := r₁.2
      let p₂ := r₂.2
      if p₁ = 0#32 ∨ p₂ = 0#32 ∨ p₁ = p₂ then
        let s := if p₁ ≠ 0#32 then pmmBuddyFreePage p₁ r₂.1 else r₂.1
        if p₂ ≠ 0#32 then pmmBuddyFreePage p₂ s else s
      else pmmBuddyFreePage p₂ (pmmBuddyFreePage p₁ r₂.1)

end Microkernel.Pmm
