import Microkernel.Lib.Machine
import Microkernel.Heap.KernelHeap
import Mathlib.Data.List.Basic
import Mathlib.Logic.Function.Basic

/-! # The first-fit heap

`heap_first_fit.c`: the heap region is cut into blocks, each behind a header of 16 bytes, and the
headers form a doubly linked list. The memory of the heap is a map from header addresses to headers;
user data are not modelled. `heap_grow` has no caller and is left out.

* **`BlockHeader`, `HeapState`** — the header and the static data, with one header at each address.
* **`heapFirstFitInit`, `heapFirstFitAlloc`, `heapFirstFitFree`** — the three calls. A loop along the list
  takes a bound on its steps and gives `none` when it is used up, so that an end of the loop is something
  to prove.
* **`HeapClient`, `HeapCall`** — the heap with the pointers that callers hold: only such a pointer is
  given back.
-/

namespace Microkernel.Heap

open Function (update)

/-- `block_header_t`. -/
structure BlockHeader where
  /-- Bytes of user data behind the header. -/
  size : U32
  /-- `is_free`, which is `0` or `1`. -/
  isFree : Bool
  /-- The next block, or `NULL`. -/
  next : U32
  /-- The previous block, or `NULL`. -/
  prev : U32
  deriving DecidableEq, Repr

/-- The static data of the backend and the headers in the heap region. -/
structure HeapState where
  /-- `heap_start`. -/
  heapStart : U32
  /-- `heap_brk`. -/
  heapBrk : U32
  /-- `heap_end`. -/
  heapEnd : U32
  /-- `free_list`: the head of the list of all blocks. -/
  freeList : U32
  /-- The headers by address. -/
  header : U32 → BlockHeader

/-- `HEADER_SIZE`. -/
def headerSize : U32 := 16#32

/-- `ALIGN8(x)`. -/
def align8 (x : U32) : U32 := (x + 7#32) &&& ~~~ 7#32

namespace HeapState

/-- Rewrite one header. -/
def modify (s : HeapState) (b : U32) (f : BlockHeader → BlockHeader) : HeapState :=
  { s with header := update s.header b (f (s.header b)) }

/-- Rounds the list loops may take: one for each byte of the region and one for the exit test. A loop
that has not ended by then returns `none`. -/
def fuel (s : HeapState) : ℕ := (s.heapBrk - s.heapStart).toNat + 1

end HeapState

/-- `merge_with_next(block)`. -/
def mergeWithNext (block : U32) (s : HeapState) : HeapState :=
  let victim := (s.header block).next
  -- the header of the victim becomes user data
  let s := s.modify block fun h => { h with size := h.size + (headerSize + (s.header victim).size) }
  let s := s.modify block fun h => { h with next := (s.header victim).next }
  if (s.header victim).next ≠ 0#32 then
    s.modify (s.header victim).next fun h => { h with prev := block }
  else s

/-- `heap_first_fit_init(start, size)`: one free block. -/
def heapFirstFitInit (s : HeapState) (start size : U32) : HeapState where
  heapStart := start
  heapBrk := start + size
  heapEnd := kheapEnd
  freeList := start
  header := update s.header start ⟨size - headerSize, true, 0#32, 0#32⟩

/-- The search of `heap_first_fit_alloc`: the first free block of at least `size` bytes, or `NULL`. -/
def heapFindFit (s : HeapState) (size : U32) : ℕ → U32 → Option U32
  | 0, _ => none
  | n + 1, curr =>
      if curr ≠ 0#32 then
        if (s.header curr).isFree ∧ (s.header curr).size ≥ size then some curr
        else heapFindFit s size n (s.header curr).next
      else some 0#32

/-- The split of `curr`: keep `size` bytes and put a new free block behind them. -/
def heapSplit (curr size : U32) (s : HeapState) : HeapState :=
  let newBlock := curr + headerSize + size
  let s := s.modify newBlock fun h => { h with size := (s.header curr).size - size - headerSize }
  let s := s.modify newBlock fun h => { h with isFree := true }
  let s := s.modify newBlock fun h => { h with next := (s.header curr).next }
  let s := s.modify newBlock fun h => { h with prev := curr }
  let s :=
    if (s.header curr).next ≠ 0#32 then
      s.modify (s.header curr).next fun h => { h with prev := newBlock }
    else s
  let s := s.modify curr fun h => { h with size := size }
  s.modify curr fun h => { h with next := newBlock }

/-- `heap_first_fit_alloc(size)`: the address of the user data, or `NULL`. -/
def heapFirstFitAlloc (size : U32) (s : HeapState) : Option (HeapState × U32) :=
  let size := align8 size
  match heapFindFit s size s.fuel s.freeList with
  | none => none
  | some curr =>
      if curr ≠ 0#32 then
        -- split only if the rest holds a header and more than 8 bytes
        let s :=
          if (s.header curr).size - size > headerSize + 8#32 then heapSplit curr size s else s
        let s := s.modify curr fun h => { h with isFree := false }
        some (s, curr + headerSize)
      -- no block fits, and the heap is not grown
      else some (s, 0#32)

/-- The forward loop of `heap_first_fit_free`: merge free blocks into `block`. -/
def heapMergeForward (block : U32) : ℕ → HeapState → Option HeapState
  | 0, _ => none
  | n + 1, s =>
      if (s.header block).next ≠ 0#32 ∧ (s.header (s.header block).next).isFree then
        heapMergeForward block n (mergeWithNext block s)
      else some s

/-- `heap_first_fit_free(ptr)`. -/
def heapFirstFitFree (ptr : U32) (s : HeapState) : Option HeapState :=
  if ptr = 0#32 then some s
  else
    let block := ptr - headerSize
    -- a pointer that is not of this heap is ignored
    if block < s.heapStart ∨ block ≥ s.heapBrk then some s
    else
      let s := s.modify block fun h => { h with isFree := true }
      (heapMergeForward block s.fuel s).map fun s =>
        -- then backwards, one block at most
        if (s.header block).prev ≠ 0#32 ∧ (s.header (s.header block).prev).isFree then
          mergeWithNext (s.header block).prev s
        else s

/-! ### The heap and its callers -/

/-- The region that `init` is given: it starts at a multiple of 8 that is not `NULL`, its size is a
multiple of 8 that holds a header, and it ends below `2 ^ 32`. Every region of whole pages between
`KHEAP_START` and `KHEAP_END` is one. -/
structure HeapRegion where
  /-- First address. -/
  start : U32
  /-- Size in bytes. -/
  size : U32
  start_pos : 0 < start.toNat
  start_aligned : 8 ∣ start.toNat
  size_aligned : 8 ∣ size.toNat
  header_le : headerSize.toNat ≤ size.toNat
  stop_lt : start.toNat + size.toNat < 2 ^ 32

/-- What a caller asks for. -/
inductive HeapCall where
  | alloc (size : U32)
  | free (ptr : U32)
  deriving DecidableEq, Repr

/-- The heap together with the pointers its callers hold. -/
structure HeapClient where
  /-- The heap. -/
  heap : HeapState
  /-- The allocated pointers that have not been freed. -/
  live : List U32

/-- One call. A caller frees only what it holds; other frees are not made. -/
def heapCall (c : HeapClient) : HeapCall → Option (HeapClient × U32)
  | .alloc size =>
      (heapFirstFitAlloc size c.heap).map fun r =>
        (⟨r.1, if r.2 = 0#32 then c.live else r.2 :: c.live⟩, r.2)
  | .free ptr =>
      if ptr ∈ c.live then
        (heapFirstFitFree ptr c.heap).map fun s => (⟨s, c.live.erase ptr⟩, 0#32)
      else some (c, 0#32)

/-- The heap over a region as a machine that starts with `init`. -/
def firstFitMachine (R : HeapRegion) (s₀ : HeapState) : Machine HeapClient HeapCall U32 :=
  ⟨⟨heapFirstFitInit s₀ R.start R.size, []⟩, heapCall⟩

end Microkernel.Heap
