import Microkernel.Lib.Bitmap
import Microkernel.Pmm.MemoryMap

/-! # The bitmap allocator

`kernel/mm/pmm_bitmap.c`: up to 32 regions of usable memory, each with a bitmap at its start in which
a one marks a used page. Page numbers and byte numbers within a region are natural numbers.

Each region has bytes of its own here: the pointer `r->bitmap` is dealt with in `Pmm/BitmapMemory`, and
`Pmm/BitmapView` says when the two are the same allocator.

* **`BitmapRegion`, `BitmapPmm`** — `struct pmm_region`, and the statics.
* **`pmmBitmapInit`, `pmmBitmapAllocPage`, `pmmBitmapFreePage`** — the calls of the backend, with the
  functions they use above them.
* **`pmmComputeRegionLayout`** — where a region and its bitmap are put in a usable entry.
-/

namespace Microkernel.Pmm

/-! ### Regions -/

/-- `struct pmm_region`, with the bytes that its field `bitmap` points to in the place of the pointer. -/
structure BitmapRegion where
  /-- Physical address of page 0 of the region. -/
  base : U32
  /-- Number of pages. -/
  pages : U32
  /-- The bytes at `PHYS_TO_VIRT(base)`; bit 1 is a used page. -/
  bitmap : Bitmap 8
  /-- `bitmap_bytes`. -/
  bitmapBytes : U32
  /-- `bitmap_storage_bytes`, whole pages. -/
  bitmapStorageBytes : U32
  /-- `bitmap_pages`, the pages of the storage. -/
  bitmapPages : U32
  /-- Number of free pages. -/
  free : U32

/-- `PMM_MAX_REGIONS`. -/
def pmmMaxRegions : ℕ := 32

/-- The statics of the allocator. -/
structure BitmapPmm where
  /-- The first `g_region_count` regions of `g_regions`. -/
  regions : List BitmapRegion
  /-- `g_region_rr`, where the next search starts. -/
  rr : ℕ
  /-- `g_pmm_total_pages`. -/
  totalPages : U32
  /-- `g_pmm_total_free`. -/
  totalFree : U32
  /-- `g_pmm_ready`. -/
  ready : Bool

namespace BitmapRegion

/-- `region_contains_addr(r, addr)`. -/
def containsAddr (r : BitmapRegion) (addr : U32) : Bool :=
  if r.pages = 0#32 then false
  else
    let stop := r.base + r.pages * pageSize
    decide (r.base ≤ addr ∧ addr < stop)

/-- `region_addr_to_index(r, addr)`. -/
def addrToIndex (r : BitmapRegion) (addr : U32) : ℕ := ((addr - r.base) / pageSize).toNat

/-- `region_index_to_addr(r, idx)`. -/
def indexToAddr (r : BitmapRegion) (idx : ℕ) : U32 := r.base + BitVec.ofNat 32 idx * pageSize

/-- `bitmap_test_r(r, bit)`. -/
def bitmapTest (r : BitmapRegion) (bit : ℕ) : Bool :=
  let byte := bit >>> 3
  let mask := 1#8 <<< (bit &&& 7)
  decide (r.bitmap byte &&& mask ≠ 0#8)

/-- `bitmap_set_r(r, bit)`. -/
def bitmapSet (r : BitmapRegion) (bit : ℕ) : BitmapRegion :=
  let byte := bit >>> 3
  let mask := 1#8 <<< (bit &&& 7)
  { r with bitmap := Function.update r.bitmap byte (r.bitmap byte ||| mask) }

/-- `bitmap_clear_r(r, bit)`. -/
def bitmapClear (r : BitmapRegion) (bit : ℕ) : BitmapRegion :=
  let byte := bit >>> 3
  let mask := 1#8 <<< (bit &&& 7)
  { r with bitmap := Function.update r.bitmap byte (r.bitmap byte &&& ~~~ mask) }

/-- The loop of `pmm_resync_free_count` over the first `n` pages of a region. -/
def countFree (r : BitmapRegion) : ℕ → U32
  | 0 => 0#32
  | n + 1 => if r.bitmapTest n then r.countFree n else r.countFree n + 1#32

/-- The loop of `pmm_find_free_index` over `n` bits of a byte from bit `bit` on. -/
def findFreeBit (r : BitmapRegion) (byte : ℕ) : ℕ → ℕ → Option ℕ
  | 0, _ => none
  | n + 1, bit =>
      let idx := (byte <<< 3) + bit
      -- the bits behind the last page are not pages
      if idx ≥ r.pages.toNat then none
      else if r.bitmapTest idx then r.findFreeBit byte n (bit + 1)
      else some idx

/-- The loop of `pmm_find_free_index` over `n` bytes from byte `byte` on. -/
def findFreeByte (r : BitmapRegion) : ℕ → ℕ → Option ℕ
  | 0, _ => none
  | n + 1, byte =>
      if r.bitmap byte = 0xFF#8 then r.findFreeByte n (byte + 1)
      else (r.findFreeBit byte 8 0).or (r.findFreeByte n (byte + 1))

/-- `pmm_find_free_index(r, &idx)`. -/
def findFreeIndex (r : BitmapRegion) : Option ℕ := r.findFreeByte r.bitmapBytes.toNat 0

/-- What `bitmap_mark_used_by_addr` does to the region it finds and to `g_pmm_total_free`. -/
def markUsed (addr : U32) (r : BitmapRegion) (totalFree : U32) : BitmapRegion × U32 :=
  let idx := r.addrToIndex addr
  if idx ≥ r.pages.toNat then (r, totalFree)
  -- already in use: nothing is counted twice
  else if r.bitmapTest idx then (r, totalFree)
  else
    let r := r.bitmapSet idx
    if r.free > 0#32 then
      ({ r with free := r.free - 1#32 }, if totalFree > 0#32 then totalFree - 1#32 else totalFree)
    else (r, totalFree)

/-- What `pmm_bitmap_free_page` does to the region it finds and to `g_pmm_total_free`. -/
def release (addr : U32) (r : BitmapRegion) (totalFree : U32) : BitmapRegion × U32 :=
  let idx := r.addrToIndex addr
  if idx ≥ r.pages.toNat then (r, totalFree)
  else if r.bitmapTest idx then
    let r := r.bitmapClear idx
    ({ r with free := r.free + 1#32 }, totalFree + 1#32)
  -- a page that is already free
  else (r, totalFree)

/-- The loop of `pmm_region_bitmap_init_and_free_tail` over `n` pages from page `i` on. -/
def freeTail : ℕ → ℕ → BitmapRegion → BitmapRegion
  | 0, _, r => r
  | n + 1, i, r =>
      let r := r.bitmapClear i
      freeTail n (i + 1) { r with free := r.free + 1#32 }

/-- `memfill_u8(dst, value, bytes)`. -/
def memfill (dst : Bitmap 8) (value : U8) (bytes : U32) : Bitmap 8 := fun k =>
  if k < bytes.toNat then value else dst k

/-- `pmm_region_bitmap_init_and_free_tail(r)`. -/
def initAndFreeTail (r : BitmapRegion) : BitmapRegion :=
  freeTail (r.pages.toNat - r.bitmapPages.toNat) r.bitmapPages.toNat
    { r with
      bitmap := memfill r.bitmap 0xFF#8 r.bitmapStorageBytes
      free := 0#32 }

end BitmapRegion

/-! ### Calls -/

/-- The loops that look for the region with an address: `f` on the first region that contains it and on
`g_pmm_total_free`. -/
def atRegionOf (addr : U32) (f : BitmapRegion → U32 → BitmapRegion × U32) (totalFree : U32) :
    List BitmapRegion → List BitmapRegion × U32
  | [] => ([], totalFree)
  | r :: rs =>
      if r.containsAddr addr then
        let q := f r totalFree
        (q.1 :: rs, q.2)
      else
        let q := atRegionOf addr f totalFree rs
        (r :: q.1, q.2)

/-- One of these loops on the statics. -/
def BitmapPmm.atRegionOf (p : BitmapPmm) (addr : U32)
    (f : BitmapRegion → U32 → BitmapRegion × U32) : BitmapPmm :=
  let q := Pmm.atRegionOf addr f p.totalFree p.regions
  { p with
    regions := q.1
    totalFree := q.2 }

/-- `bitmap_mark_used_by_addr(phys_addr)`. -/
def bitmapMarkUsedByAddr (addr : U32) (p : BitmapPmm) : BitmapPmm :=
  if ¬ p.ready then p
  else
    let addr := if addr.PageAligned then addr else alignDown addr pageSize
    p.atRegionOf addr (BitmapRegion.markUsed addr)

/-- The loop of `bitmap_mark_used_range` from `a` on; `none` when it has not ended after `n` steps. -/
def bitmapMarkUsedLoop (stop : U32) : ℕ → U32 → BitmapPmm → Option BitmapPmm
  | 0, _, _ => none
  | n + 1, a, p =>
      if a < stop then bitmapMarkUsedLoop stop n (a + pageSize) (bitmapMarkUsedByAddr a p)
      else some p

/-- `bitmap_mark_used_range(start, end_excl)`. There are `2 ^ 20` pages in the address space, so a loop
that takes more steps never ends. -/
def bitmapMarkUsedRange (start stop : U32) (p : BitmapPmm) : Option BitmapPmm :=
  if ¬ p.ready then some p
  else if stop ≤ start then some p
  else bitmapMarkUsedLoop (alignUp stop pageSize) (2 ^ 20) (alignDown start pageSize) p

/-- `pmm_resync_free_count()`. -/
def pmmResyncFreeCount (p : BitmapPmm) : BitmapPmm :=
  let regions := p.regions.map fun r => { r with free := r.countFree r.pages.toNat }
  { p with
    regions := regions
    totalFree := (regions.map (·.free)).foldl (· + ·) 0#32 }

/-- The loop of `pmm_bitmap_alloc_page` for `n` regions from offset `off` on. -/
def bitmapAllocScan (p : BitmapPmm) : ℕ → ℕ → Option (BitmapPmm × U32)
  | 0, _ => none
  | n + 1, off =>
      let ri := (p.rr + off) % p.regions.length
      (p.regions[ri]?.bind fun r =>
        -- the bitmap of a full region is not searched
        if r.free = 0#32 then none
        else r.findFreeIndex.map fun idx =>
          let r' := r.bitmapSet idx
          ({ p with
              regions := p.regions.set ri { r' with free := r'.free - 1#32 }
              totalFree := if p.totalFree > 0#32 then p.totalFree - 1#32 else p.totalFree
              rr := ri },
            r.indexToAddr idx)).or (bitmapAllocScan p n (off + 1))

/-- `pmm_bitmap_alloc_page()`. -/
def pmmBitmapAllocPage (p : BitmapPmm) : BitmapPmm × U32 :=
  if ¬ p.ready ∨ p.regions.length = 0 ∨ p.totalPages = 0#32 then (p, 0#32)
  else if p.totalFree = 0#32 then (p, 0#32)
  -- nothing found although the counter is not 0: count again
  else (bitmapAllocScan p p.regions.length 0).getD (pmmResyncFreeCount p, 0#32)

/-- `pmm_bitmap_free_page(page)`. -/
def pmmBitmapFreePage (page : U32) (p : BitmapPmm) : BitmapPmm :=
  if ¬ p.ready ∨ page = 0#32 then p
  else if ¬ page.PageAligned then p
  else p.atRegionOf page (BitmapRegion.release page)

/-- `pmm_bitmap_total_pages()`. -/
def pmmBitmapTotalPages (p : BitmapPmm) : U32 := if p.ready then p.totalPages else 0#32

/-- `pmm_bitmap_managed_base()`. -/
def pmmBitmapManagedBase (p : BitmapPmm) : U32 :=
  match p.ready, p.regions with
  | true, r :: rs =>
      rs.foldl (fun m r => if r.base ≠ 0#32 ∧ r.base < m then r.base else m) r.base
  | _, _ => 0#32

/-! ### Initialisation -/

/-- `u64_add_sat(a, b)`. -/
def u64AddSat (a b : U64) : U64 :=
  let r := a + b
  if r < a then 0xFFFFFFFFFFFFFFFF#64 else r

/-- `u32_max(a, b)`. -/
def u32Max (a b : U32) : U32 := if a > b then a else b

/-- `u32_min(a, b)`. -/
def u32Min (a b : U32) : U32 := if a < b then a else b

/-- `ranges_overlap_u32(a_start, a_end, b_start, b_end)`. -/
def rangesOverlap (aStart aStop bStart bStop : U32) : Bool :=
  decide (u32Min aStop bStop > u32Max aStart bStart)

/-- What the loop of `pmm_bitmap_init` makes of an entry: usable memory clipped to the 32-bit addresses
from `PMM_ONE_MIB` on, or `none` when the entry is skipped. -/
def clipEntry (e : Mb2MmapEntry) : Option (U32 × U32) :=
  let start64 := e.addr
  let stop64 := u64AddSat e.addr e.len
  if e.type ≠ 1#32 then none
  -- a saturated end is taken for an overflow
  else if stop64 = 0xFFFFFFFFFFFFFFFF#64 ∨ stop64 ≤ start64 then none
  else if start64 ≥ 0x100000000#64 then none
  else
    let start : U32 := start64.setWidth 32
    -- the last byte below 4 GiB is given up
    let stop : U32 := if stop64 ≥ 0x100000000#64 then 0xFFFFFFFF#32 else stop64.setWidth 32
    if stop ≤ 0x100000#32 then none
    else
      let start := if start < 0x100000#32 then 0x100000#32 else start
      if stop ≤ start then none else some (start, stop)

/-- `struct pmm_region_layout`. -/
structure RegionLayout where
  /-- The clipped entry. -/
  usableStart : U32
  /-- The end of the clipped entry. -/
  usableStop : U32
  /-- First managed address. -/
  managedStart : U32
  /-- End of the managed pages. -/
  managedStop : U32
  /-- `pages`. -/
  pages : U32
  /-- `bitmap_bytes`. -/
  bitmapBytes : U32
  /-- `bitmap_storage_bytes`. -/
  bitmapStorageBytes : U32
  /-- `bitmap_pages`. -/
  bitmapPages : U32

/-- The loop of `pmm_compute_region_layout` for `n` attempts. -/
def layoutAttempts (usable : U32 × U32) (kernel info : BootBlock) : ℕ → U32 → U32 → Option RegionLayout
  | 0, _, _ => none
  | n + 1, start, stop =>
      let start :=
        -- behind the kernel image, if the range meets it
        if rangesOverlap start stop kernel.start kernel.stop then
          if start < kernel.stop ∧ stop > kernel.start then
            u32Max start (alignUp kernel.stop pageSize)
          else start
        else start
      let start := alignUp start pageSize
      let stop := alignDown stop pageSize
      if stop ≤ start + pageSize then none
      else
        let pages := (stop - start) / pageSize
        if pages < 8#32 then none
        else
          let bytes := (pages + 7#32) / 8#32
          let storage := alignUp bytes pageSize
          let bitmapPages := storage / pageSize
          if bitmapPages ≥ pages then none
          -- behind the multiboot information, if the bitmap meets it
          else if info.stop > info.start ∧
              rangesOverlap start (start + storage) info.start info.stop then
            layoutAttempts usable kernel info n (alignUp info.stop pageSize) stop
          else some ⟨usable.1, usable.2, start, stop, pages, bytes, storage, bitmapPages⟩

/-- `pmm_compute_region_layout(…)`. -/
def pmmComputeRegionLayout (kernel info : BootBlock) (usable : U32 × U32) : Option RegionLayout :=
  if usable.2 ≤ usable.1 then none
  else layoutAttempts usable kernel info 4 usable.1 usable.2

/-- The region that `pmm_add_region` makes of a layout. `memory` is what is in memory at boot. -/
def RegionLayout.region (memory : U32 → U8) (l : RegionLayout) : BitmapRegion :=
  BitmapRegion.initAndFreeTail
    { base := l.managedStart
      pages := l.pages
      bitmap := fun k => memory (physToVirt l.managedStart + BitVec.ofNat 32 k)
      bitmapBytes := l.bitmapBytes
      bitmapStorageBytes := l.bitmapStorageBytes
      bitmapPages := l.bitmapPages
      free := 0#32 }

/-- The loop of `pmm_bitmap_init` over the entries; it stops at the first entry for which there is no
room in `g_regions`. -/
def bitmapAddRegions (memory : U32 → U8) (kernel info : BootBlock) :
    List Mb2MmapEntry → List BitmapRegion → List BitmapRegion
  | [], regions => regions
  | e :: es, regions =>
      match clipEntry e with
      | none => bitmapAddRegions memory kernel info es regions
      | some usable =>
          if regions.length ≥ pmmMaxRegions then regions
          else
            match pmmComputeRegionLayout kernel info usable with
            | none => bitmapAddRegions memory kernel info es regions
            | some l => bitmapAddRegions memory kernel info es (regions ++ [l.region memory])

/-- `pmm_recompute_totals()`. -/
def pmmRecomputeTotals (p : BitmapPmm) : BitmapPmm :=
  { p with
    totalPages := (p.regions.map (·.pages)).foldl (· + ·) 0#32
    totalFree := (p.regions.map (·.free)).foldl (· + ·) 0#32 }

/-- The loop of `pmm_selftest` that allocates `n` pages, up to the first failure: the statics and the
pages. -/
def selftestAlloc : ℕ → BitmapPmm → BitmapPmm × List U32
  | 0, p => (p, [])
  | n + 1, p =>
      let r := pmmBitmapAllocPage p
      if r.2 = 0#32 then (r.1, [])
      else
        let q := selftestAlloc n r.1
        (q.1, r.2 :: q.2)

/-- `pmm_selftest()`. On every path the pages that were allocated are freed in order; the paths differ
in what is printed. -/
def pmmSelftest (p : BitmapPmm) : BitmapPmm :=
  if ¬ p.ready ∨ p.regions.length = 0 ∨ p.totalPages = 0#32 then p
  else if p.totalFree < 4#32 then p
  else
    let q := selftestAlloc 4 p
    q.2.foldl (fun p page => pmmBitmapFreePage page p) q.1

/-- `pmm_reset_state()`. -/
def pmmResetState : BitmapPmm := ⟨[], 0, 0#32, 0#32, false⟩

/-- `pmm_bitmap_init()`, where the entries of the memory map have been found; `none` when it does not
return. -/
def pmmBitmapInit (memory : U32 → U8) (entries : List Mb2MmapEntry) (kernel info : BootBlock) :
    Option BitmapPmm :=
  let p := pmmResetState
  let regions := bitmapAddRegions memory kernel info entries p.regions
  if regions.length = 0 then some p
  else
    let p := pmmRecomputeTotals { p with regions := regions, ready := true }
    -- the kernel image, then the Multiboot2 information
    (bitmapMarkUsedRange kernel.start kernel.stop p).bind fun p =>
      (bitmapMarkUsedRange info.start info.stop p).map fun p => pmmSelftest (pmmResyncFreeCount p)

end Microkernel.Pmm
