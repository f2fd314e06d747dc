import Microkernel.Pmm.Bitmap
import Microkernel.Pmm.BootMemory

/-! # The bitmap allocator in physical memory

`kernel/mm/pmm_bitmap.c` with its bitmaps where it keeps them: `r->bitmap` is the pointer
`PHYS_TO_VIRT(r->base)`, and each byte of it is a byte of the physical memory that the boot directory
shows there. `PHYS_TO_VIRT` wraps for a base of 1 GiB or more, and then two bitmaps may be the same
bytes, or lie over something else. The definitions here are the source's; those of `Pmm/Bitmap` give
every region bytes of its own, and `Pmm/BitmapView` says when that is what the memory holds.

* **`PmmRegion`, `BitmapMemory`** — `struct pmm_region` with its pointer, and the statics with the
  memory.
* **`PmmRegion.read`** — a region with the bytes that its pointer shows, which is what the functions
  that only read a bitmap work on.
* The functions that write, each with the memory it leaves. Only `memfill_u8` and the patterns of the
  self-test can come to memory that is not shown, which is a page fault (`none`): every later access of
  a bitmap is to a byte that `memfill_u8` has written. -/

namespace Microkernel.Pmm

/-- `struct pmm_region`. -/
structure PmmRegion where
  /-- Physical address of page 0 of the region. -/
  base : U32
  /-- Number of pages. -/
  pages : U32
  /-- The pointer to the bitmap; bit 1 is a used page. -/
  bitmap : U32
  /-- `bitmap_bytes`. -/
  bitmapBytes : U32
  /-- `bitmap_storage_bytes`, whole pages. -/
  bitmapStorageBytes : U32
  /-- `bitmap_pages`, the pages of the storage. -/
  bitmapPages : U32
  /-- Number of free pages. -/
  free : U32
  deriving DecidableEq

/-- The statics of the allocator, and physical memory. -/
structure BitmapMemory where
  /-- The first `g_region_count` regions of `g_regions`. -/
  regions : List PmmRegion
  /-- `g_region_rr`, where the next search starts. -/
  rr : ℕ
  /-- `g_pmm_total_pages`. -/
  totalPages : U32
  /-- `g_pmm_total_free`. -/
  totalFree : U32
  /-- `g_pmm_ready`. -/
  ready : Bool
  /-- What is in memory. -/
  memory : PhysicalMemory

namespace PmmRegion

/-- The region with the bytes that its pointer shows. -/
def read (r : PmmRegion) (m : PhysicalMemory) : BitmapRegion where
  base := r.base
  pages := r.pages
  bitmap := fun k => loadByte m (r.bitmap + BitVec.ofNat 32 k)
  bitmapBytes := r.bitmapBytes
  bitmapStorageBytes := r.bitmapStorageBytes
  bitmapPages := r.bitmapPages
  free := r.free

/-- `region_contains_addr(r, addr)`. -/
def containsAddr (r : PmmRegion) (addr : U32) : Bool :=
  if r.pages = 0#32 then false
  else
    let stop := r.base + r.pages * pageSize
    decide (r.base ≤ addr ∧ addr < stop)

/-- `region_addr_to_index(r, addr)`. -/
def addrToIndex (r : PmmRegion) (addr : U32) : ℕ := ((addr - r.base) / pageSize).toNat

/-- `region_index_to_addr(r, idx)`. -/
def indexToAddr (r : PmmRegion) (idx : ℕ) : U32 := r.base + BitVec.ofNat 32 idx * pageSize

/-- `bitmap_test_r(r, bit)`. -/
def bitmapTest (r : PmmRegion) (m : PhysicalMemory) (bit : ℕ) : Bool := (r.read m).bitmapTest bit

/-- `bitmap_set_r(r, bit)`. -/
def bitmapSet (r : PmmRegion) (m : PhysicalMemory) (bit : ℕ) : PhysicalMemory :=
  let byte := bit >>> 3
  let mask := 1#8 <<< (bit &&& 7)
  let p := r.bitmap + BitVec.ofNat 32 byte
  storeByte m p (loadByte m p ||| mask)

/-- `bitmap_clear_r(r, bit)`. -/
def bitmapClear (r : PmmRegion) (m : PhysicalMemory) (bit : ℕ) : PhysicalMemory :=
  let byte := bit >>> 3
  let mask := 1#8 <<< (bit &&& 7)
  let p := r.bitmap + BitVec.ofNat 32 byte
  storeByte m p (loadByte m p &&& ~~~ mask)

/-- What `bitmap_mark_used_by_addr` does to the region it finds, to memory and to `g_pmm_total_free`. -/
def markUsed (addr : U32) (r : PmmRegion) (m : PhysicalMemory) (totalFree : U32) :
    PmmRegion × PhysicalMemory × U32 :=
  let idx := r.addrToIndex addr
  if idx ≥ r.pages.toNat then (r, m, totalFree)
  -- already in use: nothing is counted twice
  else if r.bitmapTest m idx then (r, m, totalFree)
  else
    let m := r.bitmapSet m idx
    if r.free > 0#32 then
      ({ r with free := r.free - 1#32 }, m, if totalFree > 0#32 then totalFree - 1#32 else totalFree)
    else (r, m, totalFree)

/-- What `pmm_bitmap_free_page` does to the region it finds, to memory and to `g_pmm_total_free`. -/
def release (addr : U32) (r : PmmRegion) (m : PhysicalMemory) (totalFree : U32) :
    PmmRegion × PhysicalMemory × U32 :=
  let idx := r.addrToIndex addr
  if idx ≥ r.pages.toNat then (r, m, totalFree)
  else if r.bitmapTest m idx then
    ({ r with free := r.free + 1#32 }, r.bitmapClear m idx, totalFree + 1#32)
  -- a page that is already free
  else (r, m, totalFree)

/-- The loop of `pmm_region_bitmap_init_and_free_tail` over `n` pages from page `i` on. -/
def freeTail : ℕ → ℕ → PmmRegion → PhysicalMemory → PmmRegion × PhysicalMemory
  | 0, _, r, m => (r, m)
  | n + 1, i, r, m => freeTail n (i + 1) { r with free := r.free + 1#32 } (r.bitmapClear m i)

/-- `pmm_region_bitmap_init_and_free_tail(r)`. -/
def initAndFreeTail (r : PmmRegion) (m : PhysicalMemory) : Option (PmmRegion × PhysicalMemory) :=
  -- the pages of the bitmap itself stay in use
  (fillBytes m r.bitmap r.bitmapStorageBytes.toNat fun _ => 0xFF#8).map fun m =>
    freeTail (r.pages.toNat - r.bitmapPages.toNat) r.bitmapPages.toNat { r with free := 0#32 } m

end PmmRegion

namespace InMemory

/-! ### Calls -/

/-- The loops that look for the region with an address: `f` on the first region that contains it, on
memory and on `g_pmm_total_free`. -/
def atRegionOf (addr : U32)
    (f : PmmRegion → PhysicalMemory → U32 → PmmRegion × PhysicalMemory × U32) (m : PhysicalMemory)
    (totalFree : U32) : List PmmRegion → List PmmRegion × PhysicalMemory × U32
  | [] => ([], m, totalFree)
  | r :: rs =>
      if r.containsAddr addr then
        let q := f r m totalFree
        (q.1 :: rs, q.2)
      else
        let q := atRegionOf addr f m totalFree rs
        (r :: q.1, q.2)

/-- One of these loops on the statics. -/
def onRegionOf (s : BitmapMemory) (addr : U32)
    (f : PmmRegion → PhysicalMemory → U32 → PmmRegion × PhysicalMemory × U32) : BitmapMemory :=
  let q := atRegionOf addr f s.memory s.totalFree s.regions
  { s with
    regions := q.1
    memory := q.2.1
    totalFree := q.2.2 }

/-- `bitmap_mark_used_by_addr(phys_addr)`. -/
def bitmapMarkUsedByAddr (addr : U32) (s : BitmapMemory) : BitmapMemory :=
  if ¬ s.ready then s
  else
    let addr := if addr.PageAligned then addr else alignDown addr pageSize
    onRegionOf s addr (PmmRegion.markUsed addr)

/-- The loop of `bitmap_mark_used_range` from `a` on; `none` when it has not ended after `n` steps. -/
def bitmapMarkUsedLoop (stop : U32) : ℕ → U32 → BitmapMemory → Option BitmapMemory
  | 0, _, _ => none
  | n + 1, a, s =>
      if a < stop then bitmapMarkUsedLoop stop n (a + pageSize) (bitmapMarkUsedByAddr a s)
      else some s

/-- `bitmap_mark_used_range(start, end_excl)`. There are `2 ^ 20` pages in the address space, so a loop
that takes more steps never ends. -/
def bitmapMarkUsedRange (start stop : U32) (s : BitmapMemory) : Option BitmapMemory :=
  if ¬ s.ready then some s
  else if stop ≤ start then some s
  else bitmapMarkUsedLoop (alignUp stop pageSize) (2 ^ 20) (alignDown start pageSize) s

/-- `pmm_resync_free_count()`. -/
def pmmResyncFreeCount (s : BitmapMemory) : BitmapMemory :=
  let regions := s.regions.map fun r => { r with free := (r.read s.memory).countFree r.pages.toNat }
  { s with
    regions := regions
    totalFree := (regions.map (·.free)).foldl (· + ·) 0#32 }

/-- The loop of `pmm_bitmap_alloc_page` for `n` regions from offset `off` on. -/
def bitmapAllocScan (s : BitmapMemory) : ℕ → ℕ → Option (BitmapMemory × U32)
  | 0, _ => none
  | n + 1, off =>
      let ri := (s.rr + off) % s.regions.length
      (s.regions[ri]?.bind fun r =>
        -- the bitmap of a full region is not searched
        if r.free = 0#32 then none
        else (r.read s.memory).findFreeIndex.map fun idx =>
          ({ s with
              regions := s.regions.set ri { r with free := r.free - 1#32 }
              memory := r.bitmapSet s.memory idx
              totalFree := if s.totalFree > 0#32 then s.totalFree - 1#32 else s.totalFree
              rr := ri },
            r.indexToAddr idx)).or (bitmapAllocScan s n (off + 1))

/-- `pmm_bitmap_alloc_page()`. -/
def pmmBitmapAllocPage (s : BitmapMemory) : BitmapMemory × U32 :=
  if ¬ s.ready ∨ s.regions.length = 0 ∨ s.totalPages = 0#32 then (s, 0#32)
  else if s.totalFree = 0#32 then (s, 0#32)
  -- nothing found although the counter is not 0: count again
  else (bitmapAllocScan s s.regions.length 0).getD (pmmResyncFreeCount s, 0#32)

/-- `pmm_bitmap_free_page(page)`. -/
def pmmBitmapFreePage (page : U32) (s : BitmapMemory) : BitmapMemory :=
  if ¬ s.ready ∨ page = 0#32 then s
  else if ¬ page.PageAligned then s
  else onRegionOf s page (PmmRegion.release page)

/-- `pmm_bitmap_total_pages()`. -/
def pmmBitmapTotalPages (s : BitmapMemory) : U32 := if s.ready then s.totalPages else 0#32

/-- `pmm_bitmap_free_pages()`. -/
def pmmBitmapFreePages (s : BitmapMemory) : U32 := if s.ready then s.totalFree else 0#32

/-! ### Initialisation -/

/-- The region that `pmm_add_region` makes of a layout, before its bitmap is written. -/
def regionOf (l : RegionLayout) : PmmRegion where
  base := l.managedStart
  pages := l.pages
  bitmap := physToVirt l.managedStart
  bitmapBytes := l.bitmapBytes
  bitmapStorageBytes := l.bitmapStorageBytes
  bitmapPages := l.bitmapPages
  free := 0#32

/-- `pmm_add_region(…)` for an entry that has a layout, with room in `g_regions`. -/
def pmmAddRegion (l : RegionLayout) (q : List PmmRegion × PhysicalMemory) :
    Option (List PmmRegion × PhysicalMemory) :=
  ((regionOf l).initAndFreeTail q.2).map fun r => (q.1 ++ [r.1], r.2)

/-- The loop of `pmm_bitmap_init` over the entries; it stops at the first entry for which there is no
room in `g_regions`. -/
def bitmapAddRegions (kernel info : BootBlock) :
    List Mb2MmapEntry → List PmmRegion × PhysicalMemory → Option (List PmmRegion × PhysicalMemory)
  | [], q => some q
  | e :: es, q =>
      match clipEntry e with
      | none => bitmapAddRegions kernel info es q
      | some usable =>
          -- a full table ends the loop, whatever the entries behind it are
          if q.1.length ≥ pmmMaxRegions then some q
          else
            match pmmComputeRegionLayout kernel info usable with
            | none => bitmapAddRegions kernel info es q
            | some l => (pmmAddRegion l q).bind (bitmapAddRegions kernel info es)

/-- `pmm_recompute_totals()`. -/
def pmmRecomputeTotals (s : BitmapMemory) : BitmapMemory :=
  { s with
    totalPages := (s.regions.map (·.pages)).foldl (· + ·) 0#32
    totalFree := (s.regions.map (·.free)).foldl (· + ·) 0#32 }

/-- The loop of `pmm_selftest` that allocates `n` pages, up to the first failure: the statics and the
pages. -/
def selftestAlloc : ℕ → BitmapMemory → BitmapMemory × List U32
  | 0, s => (s, [])
  | n + 1, s =>
      let r := pmmBitmapAllocPage s
      if r.2 = 0#32 then (r.1, [])
      else
        let q := selftestAlloc n r.1
        (q.1, r.2 :: q.2)

/-- The pattern for page `i` of the self-test. -/
def selftestPattern (i : ℕ) : U32 := 0xC0FFEE00#32 ^^^ (BitVec.ofNat 32 i * 0x11111111#32)

/-- Byte `k` of a page that is filled with a word. -/
def patternByte (pattern : U32) (k : ℕ) : U8 := pattern.extractLsb' (8 * (k % 4)) 8

/-- The loop of `pmm_selftest` that writes the patterns of the pages from page `i` on and reads them
back; it stops at the first page that reads differently. -/
def selftestWrite : ℕ → List U32 → PhysicalMemory → Option PhysicalMemory
  | _, [], m => some m
  | i, page :: pages, m =>
      let w := physToVirt page
      let pattern := selftestPattern i
      (fillBytes m w 4096 (patternByte pattern)).bind fun m =>
        if ∀ k < 4096, loadByte m (w + BitVec.ofNat 32 k) = patternByte pattern k then
          selftestWrite (i + 1) pages m
        else some m

/-- `pmm_selftest()`. On every path that comes to an end the pages that were allocated are freed in
order; the paths differ in what they write before and in what is printed. -/
def pmmSelftest (s : BitmapMemory) : Option BitmapMemory :=
  if ¬ s.ready ∨ s.regions.length = 0 ∨ s.totalPages = 0#32 then some s
  else if s.totalFree < 4#32 then some s
  else
    let q := selftestAlloc 4 s
    let freeAll := fun m => q.2.foldl (fun s page => pmmBitmapFreePage page s) { q.1 with memory := m }
    if q.2.length ≠ 4 then some (freeAll q.1.memory)
    else if q.1.totalFree ≠ s.totalFree - 4#32 then some (freeAll q.1.memory)
    else (selftestWrite 0 q.2 q.1.memory).map freeAll

/-- `pmm_bitmap_init()`, where the entries of the memory map have been found; `none` when it does not
return, which is a page fault. -/
def pmmBitmapInit (memory : PhysicalMemory) (entries : List Mb2MmapEntry) (kernel info : BootBlock) :
    Option BitmapMemory :=
  (bitmapAddRegions kernel info entries ([], memory)).bind fun q =>
    if q.1.length = 0 then some ⟨[], 0, 0#32, 0#32, false, q.2⟩
    else
      let s := pmmRecomputeTotals ⟨q.1, 0, 0#32, 0#32, true, q.2⟩
      -- the kernel image, then the Multiboot2 information
      (bitmapMarkUsedRange kernel.start kernel.stop s).bind fun s =>
        (bitmapMarkUsedRange info.start info.stop s).bind fun s => pmmSelftest (pmmResyncFreeCount s)

end InMemory

end Microkernel.Pmm
