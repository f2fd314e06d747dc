import Microkernel.Heap.KernelHeap
import Microkernel.Lib.Bitmap
import Microkernel.Lib.Machine

/-! # The slab heap

`heap_slab.c`: seven caches of objects of one size each. A slab is a page with a header and as many
objects as fit behind it; each cache keeps its slabs on two lists, those with a free object and those
without. The memory of the heap is a map from page addresses to slab headers; the contents of the
objects are not modelled. What the physical allocator and `vmm_map_page` answer to a request for a new
page comes with the call.

* **`SlabHeader`, `SlabCache`, `SlabState`** — the header at the start of a page, a cache with its two
  lists, and the static data.
* **`SlabLink`** — the places where a pointer to a slab is stored, since the search for a slab on a list
  walks along pointers to pointers.
* **`heapSlabAlloc`, `heapSlabFree`** — the two calls, with `slab_create`, the bitmap functions and
  `find_cache` under them.
-/

namespace Microkernel.Heap

open Function (update)

/-- `slab_header_t`. -/
structure SlabHeader where
  /-- The next slab on the same list, or `NULL`. -/
  next : U32
  /-- The cache the slab belongs to. -/
  cacheIdx : U32
  /-- The size of an object. -/
  objSize : U32
  /-- How many objects the slab holds. -/
  capacity : U32
  /-- How many of them are free. -/
  freeCount : U32
  /-- `free_bitmap[4]`: a set bit is a free object. -/
  freeBitmap : Bitmap 32

/-- `slab_cache_t`. -/
structure SlabCache where
  /-- The size of an object. -/
  objSize : U32
  /-- The head of the list of slabs with a free object. -/
  partialSlabs : U32
  /-- The head of the list of slabs without one. -/
  fullSlabs : U32

/-- The static data of the backend and the slab headers. -/
structure SlabState where
  /-- `caches`, by index. -/
  caches : ℕ → SlabCache
  /-- `slab_brk`: the next page. -/
  slabBrk : U32
  /-- `slab_committed`: pages below it are mapped. -/
  slabCommitted : U32
  /-- The slab headers by page address. -/
  header : U32 → SlabHeader

/-- `SLAB_HDR_SIZE`. -/
def slabHdrSize : U32 := 40#32

/-- `NUM_CACHES`. -/
def numCaches : ℕ := 7

/-- `cache_sizes`. -/
def cacheSizes : List U32 := [32#32, 64#32, 128#32, 256#32, 512#32, 1024#32, 2048#32]

/-- `cache_sizes[i]`. -/
def cacheSize (i : ℕ) : U32 := cacheSizes.getD i 0#32

namespace SlabState

/-- Rewrite one header. -/
def modify (s : SlabState) (slab : U32) (f : SlabHeader → SlabHeader) : SlabState :=
  { s with header := update s.header slab (f (s.header slab)) }

/-- Rewrite one cache. -/
def modifyCache (s : SlabState) (ci : ℕ) (f : SlabCache → SlabCache) : SlabState :=
  { s with caches := update s.caches ci (f (s.caches ci)) }

end SlabState

/-! ### The bitmap of a slab -/

/-- The inner loop of `bitmap_find_first_set` over the bits of word `w`: `some r` returns `r`, `none`
goes on with the next word. -/
def bitmapScanWord (bm : Bitmap 32) (bits w : ℕ) : List ℕ → Option (Option ℕ)
  | [] => none
  | b :: bs =>
      let idx := w * 32 + b
      if idx ≥ bits then some none
      else if bm w &&& (1#32 <<< b) ≠ 0#32 then some (some idx)
      else bitmapScanWord bm bits w bs

/-- The outer loop of `bitmap_find_first_set` over the words. -/
def bitmapScanWords (bm : Bitmap 32) (bits : ℕ) : List ℕ → Option ℕ
  | [] => none
  | w :: ws =>
      if bm w = 0#32 then bitmapScanWords bm bits ws
      else
        match bitmapScanWord bm bits w (List.range 32) with
        | some r => r
        | none => bitmapScanWords bm bits ws

/-- `bitmap_find_first_set(bm, bits)`, where `none` is `-1`. -/
def bitmapFindFirstSet (bm : Bitmap 32) (bits : U32) : Option ℕ :=
  bitmapScanWords bm bits.toNat (List.range ((bits + 31#32) / 32#32).toNat)

/-- `bitmap_clear_bit(bm, idx)`. -/
def bitmapClearBit (bm : Bitmap 32) (idx : U32) : Bitmap 32 :=
  update bm (idx / 32#32).toNat (bm (idx / 32#32).toNat &&& ~~~ (1#32 <<< (idx % 32#32).toNat))

/-- `bitmap_set_bit(bm, idx)`. -/
def bitmapSetBit (bm : Bitmap 32) (idx : U32) : Bitmap 32 :=
  update bm (idx / 32#32).toNat (bm (idx / 32#32).toNat ||| 1#32 <<< (idx % 32#32).toNat)

/-- The last loop of `slab_create`: set the first `n` bits. -/
def bitmapSetFirst (bm : Bitmap 32) : ℕ → Bitmap 32
  | 0 => bm
  | n + 1 => bitmapSetBit (bitmapSetFirst bm n) (BitVec.ofNat 32 n)

/-! ### The backend -/

/-- `slab_get_page()`. The physical allocator returns `phys`, `NULL` when it has no page, and
`mapOk` is whether `vmm_map_page` succeeds. -/
def slabGetPage (phys : U32) (mapOk : Bool) (s : SlabState) : SlabState × U32 :=
  if s.slabBrk ≥ kheapEnd then (s, 0#32)
  else
    let virt := s.slabBrk
    if s.slabBrk ≥ s.slabCommitted then
      -- the page is not mapped yet: ask for a frame and map it
      if phys = 0#32 then (s, 0#32)
      else if ¬ mapOk then (s, 0#32)
      else
        let s := { s with slabCommitted := s.slabCommitted + vmmPageSize }
        ({ s with slabBrk := s.slabBrk + vmmPageSize }, virt)
    -- the page belongs to the part that `kmalloc_init` mapped
    else ({ s with slabBrk := s.slabBrk + vmmPageSize }, virt)

/-- `slab_create(cache_idx)`: the new slab, or `NULL`. -/
def slabCreate (cacheIdx : ℕ) (phys : U32) (mapOk : Bool) (s : SlabState) : SlabState × U32 :=
  let (s, page) := slabGetPage phys mapOk s
  if page = 0#32 then (s, 0#32)
  else
    let objSize := (s.caches cacheIdx).objSize
    let capacity := (vmmPageSize - slabHdrSize) / objSize
    let capacity := if capacity > 128#32 then 128#32 else capacity
    let s := s.modify page fun h =>
      { next := 0#32
        cacheIdx := BitVec.ofNat 32 cacheIdx
        objSize := objSize
        capacity := capacity
        freeCount := capacity
        -- the four words are cleared before the bits are set
        freeBitmap := bitmapSetFirst
          (update (update (update (update h.freeBitmap 0 0#32) 1 0#32) 2 0#32) 3 0#32)
          capacity.toNat }
    (s, page)

/-- `find_cache(size)`, where `none` is `-1`. -/
def findCache (size : U32) : Option ℕ := cacheSizes.findIdx? fun c => size ≤ c

/-- `heap_slab_init(start, size)`. -/
def heapSlabInit (s : SlabState) (start size : U32) : SlabState where
  slabBrk := start
  slabCommitted := start + size
  caches i := if i < numCaches then ⟨cacheSize i, 0#32, 0#32⟩ else s.caches i
  header := s.header

/-- The end of `heap_slab_alloc` for the first slab of a cache that has become full. -/
def slabMoveToFull (ci : ℕ) (slab : U32) (s : SlabState) : SlabState :=
  let s := s.modifyCache ci fun c => { c with partialSlabs := (s.header slab).next }
  let s := s.modify slab fun h => { h with next := (s.caches ci).fullSlabs }
  s.modifyCache ci fun c => { c with fullSlabs := slab }

/-- The part of `heap_slab_alloc` after the cache has a slab with a free object: take an object of the
first one. -/
def slabTakeObject (ci : ℕ) (s : SlabState) : SlabState × U32 :=
  let slab := (s.caches ci).partialSlabs
  match bitmapFindFirstSet (s.header slab).freeBitmap (s.header slab).capacity with
  | none => (s, 0#32)
  | some slot =>
      let slot := BitVec.ofNat 32 slot
      let s := s.modify slab fun h => { h with freeBitmap := bitmapClearBit h.freeBitmap slot }
      let s := s.modify slab fun h => { h with freeCount := h.freeCount - 1#32 }
      let obj := slab + slabHdrSize + slot * (s.header slab).objSize
      let s :=
        -- that was the last free object of the slab
        if (s.header slab).freeCount = 0#32 then slabMoveToFull ci slab s else s
      (s, obj)

/-- `heap_slab_alloc(size)`. -/
def heapSlabAlloc (size phys : U32) (mapOk : Bool) (s : SlabState) : SlabState × U32 :=
  if size = 0#32 then (s, 0#32)
  else
    match findCache size with
    | none => (s, 0#32)
    | some ci =>
        -- no slab of the class has a free object: make one
        if (s.caches ci).partialSlabs = 0#32 then
          let (s, newSlab) := slabCreate ci phys mapOk s
          if newSlab = 0#32 then (s, 0#32)
          else slabTakeObject ci (s.modifyCache ci fun c => { c with partialSlabs := newSlab })
        else slabTakeObject ci s

/-- The places a pointer to a slab is stored in: `&cache->full` and `&slab->next`. -/
inductive SlabLink where
  | full (ci : ℕ)
  | next (slab : U32)

/-- `*pp`. -/
def SlabState.load (s : SlabState) : SlabLink → U32
  | .full ci => (s.caches ci).fullSlabs
  | .next slab => (s.header slab).next

/-- `*pp = v`. -/
def SlabState.store (s : SlabState) (v : U32) : SlabLink → SlabState
  | .full ci => s.modifyCache ci fun c => { c with fullSlabs := v }
  | .next slab => s.modify slab fun h => { h with next := v }

/-- The search of `heap_slab_free` for the link that points to `slab`, or the last link. -/
def slabFindLink (s : SlabState) (slab : U32) : ℕ → SlabLink → Option SlabLink
  | 0, _ => none
  | n + 1, pp =>
      if s.load pp ≠ 0#32 ∧ s.load pp ≠ slab then slabFindLink s slab n (.next (s.load pp))
      else some pp

/-- Rounds the search may take: one for each page and one for the exit test. -/
def slabFuel : ℕ := 2 ^ 20 + 1

/-- The end of `heap_slab_free` for a slab that was full: it moves to the front of the other list. -/
def slabMoveToPartial (slab : U32) (s : SlabState) : Option SlabState :=
  let ci := (s.header slab).cacheIdx.toNat
  (slabFindLink s slab slabFuel (.full ci)).map fun pp =>
    -- taken out of the list of full slabs
    let s := if s.load pp ≠ 0#32 then s.store (s.header slab).next pp else s
    let s := s.modify slab fun h => { h with next := (s.caches ci).partialSlabs }
    s.modifyCache ci fun c => { c with partialSlabs := slab }

/-- `heap_slab_free(ptr)`. -/
def heapSlabFree (ptr : U32) (s : SlabState) : Option SlabState :=
  if ptr = 0#32 then some s
  else
    let slab := ptr &&& ~~~ (vmmPageSize - 1#32)
    -- neither the alignment of the pointer nor its bit is checked
    let offset := (ptr - slab) - slabHdrSize
    let slot := offset / (s.header slab).objSize
    if slot ≥ (s.header slab).capacity then some s
    else
      let wasFull := (s.header slab).freeCount = 0#32
      let s := s.modify slab fun h => { h with freeBitmap := bitmapSetBit h.freeBitmap slot }
      let s := s.modify slab fun h => { h with freeCount := h.freeCount + 1#32 }
      if wasFull then slabMoveToPartial slab s else some s

/-! ### The heap and its callers -/

/-- The region that `init` is given: it starts at a page boundary that is not `NULL`. -/
structure SlabRegion where
  /-- First address. -/
  start : U32
  /-- Size in bytes. -/
  size : U32
  start_aligned : start.PageAligned
  start_ne_zero : start ≠ 0#32

/-- What a caller asks for. An allocation also carries what a request for a new page would meet. -/
inductive SlabCall where
  | alloc (size phys : U32) (mapOk : Bool)
  | free (ptr : U32)
  deriving DecidableEq, Repr

/-- The heap together with the pointers its callers hold. -/
structure SlabClient where
  /-- The heap. -/
  heap : SlabState
  /-- The allocated pointers that have not been freed. -/
  live : List U32

/-- One call. A caller frees only what it holds; other frees are not made. -/
def slabCall (c : SlabClient) : SlabCall → Option (SlabClient × U32)
  | .alloc size phys mapOk =>
      let (s, p) := heapSlabAlloc size phys mapOk c.heap
      some (⟨s, if p = 0#32 then c.live else p :: c.live⟩, p)
  | .free ptr =>
      if c.live.contains ptr then
        (heapSlabFree ptr c.heap).map fun s => (⟨s, c.live.erase ptr⟩, 0#32)
      else some (c, 0#32)

/-- The slab heap over a region as a machine that starts with `init`. -/
def slabMachine (R : SlabRegion) (s₀ : SlabState) : Machine SlabClient SlabCall U32 :=
  ⟨⟨heapSlabInit s₀ R.start R.size, []⟩, slabCall⟩

end Microkernel.Heap
