import Microkernel.Heap.FirstFitRun
import Microkernel.Heap.SlabOwned

/-! # The heap statistics

`heap_first_fit_stats` and `heap_slab_stats` count again, from the list of blocks and from the lists of
slabs, what is allocated and what is free. Their figures are words that could wrap around. In every
reachable state they are the figures of the allocations that the callers hold.

* **`KheapStats`** — the structure that both functions fill in.
* **`KheapStats.OfFirstFit`, `KheapStats.OfSlab`** — what its figures should be, as sums of natural
  numbers over the live allocations.
* **`heapStats_of_live`** — both backends, every run: the counting loops end, and the words are these
  sums.
-/

namespace Microkernel.Heap

/-- `kheap_stats_t`. -/
structure KheapStats where
  /-- The size of the heap in bytes. -/
  heapSize : U32
  /-- Allocated bytes. -/
  usedBytes : U32
  /-- Free bytes. -/
  freeBytes : U32
  /-- How many allocations are live. -/
  allocCount : U32
  /-- How many blocks or objects are free. -/
  freeCount : U32
  deriving DecidableEq, Repr

/-! ### The first-fit heap -/

/-- One round of the loop of `heap_first_fit_stats`. -/
def firstFitStatsRound (s : HeapState) (out : KheapStats) (curr : U32) : KheapStats :=
  if (s.header curr).isFree then
    { out with
      freeBytes := out.freeBytes + (s.header curr).size
      freeCount := out.freeCount + 1#32 }
  else
    { out with
      usedBytes := out.usedBytes + ((s.header curr).size + headerSize)
      allocCount := out.allocCount + 1#32 }

/-- `heap_first_fit_stats(out)`. -/
def heapFirstFitStats (s : HeapState) : Option KheapStats :=
  walkList (fun curr => (s.header curr).next) 0#32 (firstFitStatsRound s) s.fuel
    ⟨s.heapBrk - s.heapStart, 0#32, 0#32, 0#32, 0#32⟩ s.freeList

/-- **The figures of the first-fit heap**: what is used with its headers, what is free, and 16 bytes of
header for each free block make up the heap. -/
structure KheapStats.OfFirstFit (out : KheapStats) (c : HeapClient) : Prop where
  allocCount : out.allocCount.toNat = c.live.length
  heapSize : out.heapSize.toNat = c.heap.heapBrk.toNat - c.heap.heapStart.toNat
  bytes : out.usedBytes.toNat + out.freeBytes.toNat + 16 * out.freeCount.toNat = out.heapSize.toNat

section FirstFit
variable {h : U32 → BlockHeader} {c : HeapClient} {R : HeapRegion} {bs : List Block} {p : U32}

/-- The headers of a list of blocks are a linked list. -/
theorem LaidOut.linked (hl : LaidOut h p 0#32 bs) (hnull : ∀ b ∈ bs, b.addr ≠ 0#32) :
    Linked (fun a => (h a).next) 0#32 (headAddr 0#32 bs) (bs.map Block.addr) := by
  induction bs generalizing p with
  | nil => rfl
  | cons b bs ih =>
    obtain ⟨hb, hl⟩ := hl
    refine ⟨rfl, hnull b (by simp), ?_⟩
    show Linked _ _ (h b.addr).next _
    rw [hb]
    exact ih hl fun d hd => hnull d (by simp [hd])

/-- What the loop counts for a block. -/
theorem HeapState.Holds.header_of_mem {s : HeapState} (hs : s.Holds bs) {b : Block} (hb : b ∈ bs) :
    (s.header b.addr).size = b.size ∧ (s.header b.addr).isFree = b.isFree := by
  obtain ⟨l₁, l₂, rfl⟩ := List.append_of_mem hb
  rw [hs.header]
  exact ⟨rfl, rfl⟩

/-- The figures are sums over the blocks, as long as a word can hold them. -/
theorem HeapClient.Describes.heapFirstFitStats_eq (hc : c.Describes R bs) :
    ∃ out, heapFirstFitStats c.heap = some out ∧ out.heapSize = c.heap.heapBrk - c.heap.heapStart ∧
      out.allocCount = BitVec.ofNat 32 (bs.map fun b => if b.isFree then 0 else 1).sum ∧
      out.usedBytes =
        BitVec.ofNat 32 (bs.map fun b => if b.isFree then 0 else b.size.toNat + 16).sum ∧
      out.freeCount = BitVec.ofNat 32 (bs.map fun b => if b.isFree then 1 else 0).sum ∧
      out.freeBytes = BitVec.ofNat 32 (bs.map fun b => if b.isFree then b.size.toNat else 0).sum := by
  have hlinked := hc.holds.laidOut.linked hc.holds.ne_null
  have hwalk := hlinked.walkList_eq (by rw [List.length_map]; exact hc.length_lt)
    (firstFitStatsRound c.heap) ⟨c.heap.heapBrk - c.heap.heapStart, 0#32, 0#32, 0#32, 0#32⟩
  rw [← hc.holds.head, List.foldl_map] at hwalk
  -- each block adds its own figures
  have hcount : ∀ {π : KheapStats → U32} {g : Block → ℕ},
      (∀ out, ∀ b ∈ bs, π (firstFitStatsRound c.heap out b.addr) = π out + BitVec.ofNat 32 (g b)) →
      π ⟨c.heap.heapBrk - c.heap.heapStart, 0#32, 0#32, 0#32, 0#32⟩ = 0#32 →
      π (bs.foldl (fun out b => firstFitStatsRound c.heap out b.addr)
        ⟨c.heap.heapBrk - c.heap.heapStart, 0#32, 0#32, 0#32, 0#32⟩) =
        BitVec.ofNat 32 (bs.map g).sum := by
    intro π g hround hzero
    rw [foldl_counter hround, hzero, BitVec.zero_add]
  have hround : ∀ out, ∀ b ∈ bs, firstFitStatsRound c.heap out b.addr =
      if b.isFree then { out with freeBytes := out.freeBytes + b.size
                                  freeCount := out.freeCount + 1#32 }
      else { out with usedBytes := out.usedBytes + (b.size + headerSize)
                      allocCount := out.allocCount + 1#32 } := by
    intro out b hb
    obtain ⟨hsize, hfree⟩ := hc.holds.header_of_mem hb
    rw [firstFitStatsRound, hsize, hfree]
  refine ⟨_, hwalk, ?_, hcount ?_ rfl, hcount ?_ rfl, hcount ?_ rfl, hcount ?_ rfl⟩
  · simpa using foldl_counter (π := KheapStats.heapSize) (g := fun _ => 0) (fun out b hb => by
      rw [hround out b hb]
      cases b.isFree <;> simp) _
  all_goals
    intro out b hb
    rw [hround out b hb]
    cases b.isFree <;> simp [headerSize, BitVec.ofNat_add]

/-- The allocated blocks are counted by the pointers to them. -/
theorem sum_allocated (bs : List Block) :
    (bs.map fun b => if b.isFree then 0 else 1).sum = (allocated bs).length := by
  induction bs with
  | nil => rfl
  | cons b bs ih =>
    rw [List.map_cons, List.sum_cons, ih, allocated_cons]
    cases b.isFree <;> simp [Nat.add_comm]

/-- The figures of the blocks add up to their extents. -/
theorem sum_bytes (bs : List Block) :
    (bs.map fun b => if b.isFree then 0 else b.size.toNat + 16).sum +
      (bs.map fun b => if b.isFree then b.size.toNat else 0).sum +
      16 * (bs.map fun b => if b.isFree then 1 else 0).sum =
      (bs.map fun b => b.hi - b.lo).sum := by
  induction bs with
  | nil => rfl
  | cons b bs ih =>
    have hext : b.hi - b.lo = b.size.toNat + 16 := by
      unfold Block.hi Block.lo
      omega
    simp only [List.map_cons, List.sum_cons, hext]
    cases b.isFree <;> simp <;> omega

/-- **The first-fit statistics** are those of the live allocations. -/
theorem HeapClient.Describes.stats (hc : c.Describes R bs) :
    ∃ out, heapFirstFitStats c.heap = some out ∧ out.OfFirstFit c := by
  obtain ⟨out, hres, hsize, halloc, hused, hcount, hfree⟩ := hc.heapFirstFitStats_eq
  have htiles := hc.tiles.add_sum_sub fun b _ => b.lo_lt_hi.le
  have hlen := hc.tiles.length_le fun b _ => b.lo_lt_hi
  have hbytes := sum_bytes bs
  have hstop := R.stop_lt
  have hlive : (allocated bs).length ≤ bs.length := by
    rw [allocated, List.length_map]
    exact List.length_filter_le ..
  have hbrk := hc.brk_toNat
  have hheap : out.heapSize.toNat = R.size.toNat := by
    rw [hsize, hc.brk, hc.start, BitVec.add_comm, BitVec.add_sub_cancel]
  -- no sum is larger than the region, so none wraps around
  rw [sum_allocated] at halloc
  refine ⟨out, hres, ?_, ?_, ?_⟩
  · rw [halloc, BitVec.toNat_ofNat, hc.live.length_eq]
    exact Nat.mod_eq_of_lt (by omega)
  · rw [hheap, hbrk, hc.start, Nat.add_sub_cancel_left]
  · rw [hused, hfree, hcount, hheap, BitVec.toNat_ofNat, BitVec.toNat_ofNat, BitVec.toNat_ofNat,
      Nat.mod_eq_of_lt (by omega), Nat.mod_eq_of_lt (by omega), Nat.mod_eq_of_lt (by omega)]
    omega

end FirstFit

/-! ### The slab heap -/

/-- One round of the first loop of `heap_slab_stats`, over the slabs with a free object. -/
def slabStatsPartial (s : SlabState) (out : KheapStats) (slab : U32) : KheapStats :=
  let used := (s.header slab).capacity - (s.header slab).freeCount
  { out with
    allocCount := out.allocCount + used
    usedBytes := out.usedBytes + used * (s.header slab).objSize
    freeCount := out.freeCount + (s.header slab).freeCount
    freeBytes := out.freeBytes + (s.header slab).freeCount * (s.header slab).objSize }

/-- One round of the second loop, over the slabs without one. -/
def slabStatsFull (s : SlabState) (out : KheapStats) (slab : U32) : KheapStats :=
  { out with
    allocCount := out.allocCount + (s.header slab).capacity
    usedBytes := out.usedBytes + (s.header slab).capacity * (s.header slab).objSize }

/-- The two loops for one cache. -/
def slabStatsCache (s : SlabState) (out : KheapStats) (i : ℕ) : Option KheapStats :=
  (walkList (fun slab => (s.header slab).next) 0#32 (slabStatsPartial s) slabFuel out
    (s.caches i).partialSlabs).bind fun out =>
      walkList (fun slab => (s.header slab).next) 0#32 (slabStatsFull s) slabFuel out
        (s.caches i).fullSlabs

/-- `heap_slab_stats(out)`. -/
def heapSlabStats (s : SlabState) : Option KheapStats :=
  (List.range numCaches).foldlM (slabStatsCache s)
    ⟨if s.slabBrk > kheapStart then s.slabBrk - kheapStart else 0#32, 0#32, 0#32, 0#32, 0#32⟩

/-- The size of the objects that serve a request. -/
def classSize (size : U32) : ℕ :=
  match findCache size with
  | some i => (cacheSize i).toNat
  | none => 0

/-- The slabs: the pages that were taken, from the start of the region on. -/
def SlabState.slabPages (s : SlabState) (R : SlabRegion) : List U32 :=
  (List.range ((s.slabBrk - R.start).toNat / 4096)).map fun k => R.start + BitVec.ofNat 32 (4096 * k)

/-- **The figures of the slab heap**: what is used are the class sizes of the live allocations, and what
is used or free is the room of all slabs. -/
structure KheapStats.OfSlab (out : KheapStats) (c : SlabClient) (R : SlabRegion)
    (owned : List (U32 × U32)) : Prop where
  allocCount : out.allocCount.toNat = c.live.length
  pointers : (owned.map Prod.fst).Perm c.live
  usedBytes : out.usedBytes.toNat = (owned.map fun e => classSize e.2).sum
  bytes : out.usedBytes.toNat + out.freeBytes.toNat = ((c.heap.slabPages R).map fun a =>
    (c.heap.header a).capacity.toNat * (c.heap.header a).objSize.toNat).sum

/-- The slabs, cache by cache. -/
def allSlabs (part full : ℕ → List U32) : List U32 :=
  (List.range numCaches).flatMap fun i => part i ++ full i

/-- The pointers to the used slots of the slab at `a`. -/
def SlabState.objectsAt (s : SlabState) (a : U32) : List U32 :=
  s.usedObjects (s.header a).cacheIdx.toNat a

section Slab
variable {s : SlabState} {c : SlabClient} {R : SlabRegion} {part full : ℕ → List U32}
  {owned : List (U32 × U32)} {i : ℕ} {a : U32}

/-- The slabs of all caches. -/
theorem mem_allSlabs : a ∈ allSlabs part full ↔ ∃ i < numCaches, a ∈ part i ++ full i := by
  simp only [allSlabs, List.mem_flatMap, List.mem_range]

/-- No slab is listed twice. -/
theorem SlabState.Lists.nodup_allSlabs (h : s.Lists R part full) : (allSlabs part full).Nodup := by
  refine List.nodup_flatMap.mpr ⟨fun i hi => h.nodup i (List.mem_range.mp hi), ?_⟩
  refine List.nodup_range.pairwise_of_forall_ne fun i hi j hj hij a ha hb => ?_
  rw [List.mem_range] at hi hj
  exact hij ((h.holds i hi a ha).inj (h.holds j hj a hb) hi hj)

/-- The listed slabs are the pages that were taken. -/
theorem SlabState.Lists.perm_slabPages (h : s.Lists R part full) :
    (allSlabs part full).Perm (s.slabPages R) := by
  have hstart := (U32.pageAligned_iff _).mp R.start_aligned
  have hbrk := (U32.pageAligned_iff _).mp h.brk_aligned
  have hle := h.start_le
  rw [BitVec.le_def] at hle
  have hlt := s.slabBrk.isLt
  have hsub : (s.slabBrk - R.start).toNat = s.slabBrk.toNat - R.start.toNat :=
    BitVec.toNat_sub_of_le h.start_le
  have haddr : ∀ k < (s.slabBrk - R.start).toNat / 4096,
      (R.start + BitVec.ofNat 32 (4096 * k)).toNat = R.start.toNat + 4096 * k := by
    intro k hk
    rw [BitVec.toNat_add, BitVec.toNat_ofNat, Nat.mod_eq_of_lt (a := 4096 * k) (by omega)]
    exact Nat.mod_eq_of_lt (by omega)
  have hnodup : (s.slabPages R).Nodup := by
    refine List.Nodup.map_on (fun k hk l hl heq => ?_) List.nodup_range
    rw [List.mem_range] at hk hl
    have := congrArg BitVec.toNat heq
    rw [haddr k hk, haddr l hl] at this
    omega
  refine (List.perm_ext_iff_of_nodup h.nodup_allSlabs hnodup).mpr fun a => ?_
  rw [mem_allSlabs, h.pages, SlabState.slabPages, List.mem_map]
  constructor
  · rintro ⟨halign, hlo, hhi⟩
    rw [U32.pageAligned_iff] at halign
    rw [BitVec.le_def] at hlo
    rw [BitVec.lt_def] at hhi
    have hk : (a.toNat - R.start.toNat) / 4096 < (s.slabBrk - R.start).toNat / 4096 := by omega
    refine ⟨(a.toNat - R.start.toNat) / 4096, List.mem_range.mpr hk, BitVec.eq_of_toNat_eq ?_⟩
    rw [haddr _ hk]
    omega
  · rintro ⟨k, hk, rfl⟩
    have hk := List.mem_range.mp hk
    rw [U32.pageAligned_iff, BitVec.le_def, BitVec.lt_def, haddr k hk]
    omega

/-- The objects in use that the statistics count in a slab are those whose bit is clear. -/
theorem SlabState.HoldsSlab.objectsAt_eq (h : s.HoldsSlab i a) (hi : i < numCaches) :
    s.objectsAt a = s.usedObjects i a := by
  rw [SlabState.objectsAt, h.cacheIdx_toNat hi]

/-- **The callers hold the used slots of the slabs.** -/
theorem SlabClient.Describes.perm_live (h : c.Describes R part full) :
    c.live.Perm ((allSlabs part full).flatMap c.heap.objectsAt) := by
  have hmem : ∀ a q, a ∈ allSlabs part full → (q ∈ c.heap.objectsAt a ↔ ∃ i < numCaches,
      a ∈ part i ++ full i ∧ ∃ k < (slabCapacity i).toNat,
        (c.heap.header a).freeBitmap.test k = false ∧ q = objectAddr i a k) := by
    intro a q ha
    obtain ⟨i, hi, ha⟩ := mem_allSlabs.mp ha
    have hholds := h.heap.holds i hi a ha
    rw [hholds.objectsAt_eq hi, SlabState.mem_usedObjects]
    constructor
    · exact fun hq => ⟨i, hi, ha, hq⟩
    · rintro ⟨j, hj, hb, hq⟩
      obtain rfl := hholds.inj (h.heap.holds j hj a hb) hi hj
      exact hq
  have hnodup : ((allSlabs part full).flatMap c.heap.objectsAt).Nodup := by
    refine List.nodup_flatMap.mpr ⟨fun a ha => ?_, ?_⟩
    · obtain ⟨i, hi, ha⟩ := mem_allSlabs.mp ha
      rw [(h.heap.holds i hi a ha).objectsAt_eq hi]
      exact h.heap.nodup_usedObjects hi ha
    · refine h.heap.nodup_allSlabs.pairwise_of_forall_ne fun a ha b hb hab q hqa hqb => ?_
      obtain ⟨i, hi, ha, k, hk, -, rfl⟩ := (hmem a q ha).mp hqa
      obtain ⟨j, hj, hb, l, hl, -, heq⟩ := (hmem b _ hb).mp hqb
      exact hab (h.heap.object_inj hi ha hk hj hb hl heq).2.1
  refine (List.perm_ext_iff_of_nodup h.nodup hnodup).mpr fun q => ?_
  rw [h.live, List.mem_flatMap]
  constructor
  · rintro ⟨i, hi, a, ha, hq⟩
    have hslab := mem_allSlabs.mpr ⟨i, hi, ha⟩
    exact ⟨a, hslab, (hmem a q hslab).mpr ⟨i, hi, ha, hq⟩⟩
  · rintro ⟨a, hslab, hq⟩
    obtain ⟨i, hi, ha, hq⟩ := (hmem a q hslab).mp hq
    exact ⟨i, hi, a, ha, hq⟩

/-- The loops for one cache go over its slabs; a full slab counts as one without free objects. -/
theorem SlabState.Describes.slabStatsCache_eq (h : s.Describes R part full) (hi : i < numCaches)
    (out : KheapStats) :
    slabStatsCache s out i = some ((part i ++ full i).foldl (slabStatsPartial s) out) := by
  have hlen := h.length_lt hi
  rw [List.length_append] at hlen
  have hfull : ∀ out, ∀ a ∈ full i, slabStatsFull s out a = slabStatsPartial s out a := by
    intro out a ha
    simp [slabStatsFull, slabStatsPartial, h.full_zero i hi a ha]
  rw [slabStatsCache, (h.partial_linked i hi).walkList_eq (by omega), Option.bind_some,
    (h.full_linked i hi).walkList_eq (by omega), List.foldl_append, List.foldl_ext _ _ _ hfull]

/-- The statistics go over all slabs. -/
theorem SlabState.Describes.heapSlabStats_eq (h : s.Describes R part full) :
    heapSlabStats s = some ((allSlabs part full).foldl (slabStatsPartial s)
      ⟨if s.slabBrk > kheapStart then s.slabBrk - kheapStart else 0#32, 0#32, 0#32, 0#32, 0#32⟩) := by
  have hloop : ∀ (is : List ℕ) (out : KheapStats), (∀ i ∈ is, i < numCaches) →
      is.foldlM (slabStatsCache s) out =
        some ((is.flatMap fun i => part i ++ full i).foldl (slabStatsPartial s) out) := by
    intro is
    induction is with
    | nil => exact fun _ _ => rfl
    | cons i is ih =>
      intro out his
      rw [List.foldlM_cons, h.slabStatsCache_eq (his i List.mem_cons_self), Option.bind_eq_bind,
        Option.bind_some, ih _ fun j hj => his j (List.mem_cons_of_mem i hj), ← List.foldl_append]
      rfl
  exact hloop _ _ fun i hi => List.mem_range.mp hi

/-- What is used and what is free in a slab. -/
theorem SlabState.HoldsSlab.figures (h : s.HoldsSlab i a) (hi : i < numCaches) :
    ((s.header a).capacity - (s.header a).freeCount).toNat = (s.objectsAt a).length ∧
      (s.objectsAt a).length + (s.header a).freeCount.toNat = (s.header a).capacity.toNat := by
  have hlen := h.length_usedObjects
  rw [← h.capacity, ← h.objectsAt_eq hi] at hlen
  refine ⟨?_, hlen⟩
  rw [BitVec.toNat_sub_of_le (BitVec.le_def.mpr (by omega))]
  omega

/-- The figures are sums over the slabs, as long as a word can hold them. -/
theorem SlabState.Describes.heapSlabStats_sums (h : s.Describes R part full) :
    ∃ out, heapSlabStats s = some out ∧
      out.allocCount = BitVec.ofNat 32 ((allSlabs part full).map fun a => (s.objectsAt a).length).sum ∧
      out.usedBytes = BitVec.ofNat 32 ((allSlabs part full).map fun a =>
        (s.objectsAt a).length * (s.header a).objSize.toNat).sum ∧
      out.freeBytes = BitVec.ofNat 32 ((allSlabs part full).map fun a =>
        (s.header a).freeCount.toNat * (s.header a).objSize.toNat).sum := by
  have hused : ∀ a ∈ allSlabs part full,
      ((s.header a).capacity - (s.header a).freeCount).toNat = (s.objectsAt a).length := by
    intro a ha
    obtain ⟨i, hi, ha⟩ := mem_allSlabs.mp ha
    exact ((h.holds i hi a ha).figures hi).1
  refine ⟨_, h.heapSlabStats_eq, ?_, ?_, ?_⟩
  · refine (foldl_counter (π := KheapStats.allocCount) (fun out a ha => ?_) _).trans (BitVec.zero_add _)
    rw [← hused a ha, BitVec.ofNat_toNat, BitVec.setWidth_eq]
    rfl
  · refine (foldl_counter (π := KheapStats.usedBytes) (fun out a ha => ?_) _).trans (BitVec.zero_add _)
    rw [← hused a ha, BitVec.ofNat_mul, BitVec.ofNat_toNat, BitVec.ofNat_toNat]
    simp [slabStatsPartial]
  · refine (foldl_counter (π := KheapStats.freeBytes) (fun out a _ => ?_) _).trans (BitVec.zero_add _)
    rw [BitVec.ofNat_mul, BitVec.ofNat_toNat, BitVec.ofNat_toNat]
    simp [slabStatsPartial]

/-- The class sizes of the objects of a slab. -/
theorem SlabState.Lists.sum_extent (h : s.Lists R part full) (ha : a ∈ allSlabs part full) :
    ((s.objectsAt a).map s.extent).sum = (s.objectsAt a).length * (s.header a).objSize.toNat := by
  obtain ⟨i, hi, ha⟩ := mem_allSlabs.mp ha
  have hholds := h.holds i hi a ha
  have hsame : (s.objectsAt a).map s.extent =
      List.replicate (s.objectsAt a).length (s.header a).objSize.toNat := by
    refine List.eq_replicate_iff.mpr ⟨List.length_map .., fun n hn => ?_⟩
    obtain ⟨p, hp, rfl⟩ := List.mem_map.mp hn
    rw [hholds.objectsAt_eq hi, SlabState.mem_usedObjects] at hp
    rw [hholds.objSize]
    exact h.extent_of_uses hi ⟨a, ha, hp⟩
  rw [hsame, List.sum_replicate_nat]

/-- **The class sizes of the live allocations** are what is used in the slabs. -/
theorem SlabClient.Owns.sum_classSize (h : c.Owns R part full owned) :
    (owned.map fun e => classSize e.2).sum = ((allSlabs part full).map fun a =>
      (c.heap.objectsAt a).length * (c.heap.header a).objSize.toNat).sum := by
  have hclass : owned.map (fun e => classSize e.2) = (owned.map Prod.fst).map c.heap.extent := by
    rw [List.map_map]
    refine List.map_congr_left fun e he => ?_
    obtain ⟨i, hi, hfind, huses⟩ := h.cache e he
    simp only [classSize, hfind, Function.comp_apply,
      h.describes.heap.extent_of_uses hi huses]
  have hperm := (h.live.trans h.describes.perm_live).map c.heap.extent
  have hslabs : (allSlabs part full).map (fun a => ((c.heap.objectsAt a).map c.heap.extent).sum) =
      (allSlabs part full).map fun a =>
        (c.heap.objectsAt a).length * (c.heap.header a).objSize.toNat :=
    List.map_congr_left fun a ha => h.describes.heap.sum_extent ha
  rw [hclass, hperm.sum_eq, List.map_flatMap, List.flatMap_def, List.sum_flatten, List.map_map,
    ← hslabs]
  rfl

/-- The room of all slabs fits into a word. -/
theorem SlabState.Lists.sum_room_lt (h : s.Lists R part full) :
    ((allSlabs part full).map fun a =>
      (s.header a).capacity.toNat * (s.header a).objSize.toNat).sum < 2 ^ 32 := by
  have hroom := List.sum_le_card_nsmul ((allSlabs part full).map fun a =>
    (s.header a).capacity.toNat * (s.header a).objSize.toNat) 4056 (fun n hn => by
      obtain ⟨a, ha, rfl⟩ := List.mem_map.mp hn
      obtain ⟨i, hi, ha⟩ := mem_allSlabs.mp ha
      obtain ⟨-, -, -, -, hcap⟩ := slabCapacity_spec i hi
      rw [(h.holds i hi a ha).capacity, (h.holds i hi a ha).objSize]
      omega)
  have hlen := h.perm_slabPages.length_eq
  rw [SlabState.slabPages, List.length_map, List.length_range] at hlen
  have hlt := (s.slabBrk - R.start).isLt
  rw [List.length_map, hlen, smul_eq_mul] at hroom
  omega

/-- **The slab statistics** are those of the live allocations. -/
theorem SlabClient.Owns.stats (h : c.Owns R part full owned) :
    ∃ out, heapSlabStats c.heap = some out ∧ out.OfSlab c R owned := by
  obtain ⟨out, hres, halloc, hused, hfree⟩ := h.describes.heap.heapSlabStats_sums
  have hfit := h.describes.heap.sum_room_lt
  have hlive := h.describes.perm_live.length_eq
  rw [List.length_flatMap] at hlive
  -- slab by slab, what is used and what is free make up the room
  have hroom : ∀ a ∈ allSlabs part full,
      (c.heap.objectsAt a).length * (c.heap.header a).objSize.toNat +
        (c.heap.header a).freeCount.toNat * (c.heap.header a).objSize.toNat =
        (c.heap.header a).capacity.toNat * (c.heap.header a).objSize.toNat ∧
      (c.heap.objectsAt a).length ≤
        (c.heap.objectsAt a).length * (c.heap.header a).objSize.toNat := by
    intro a ha
    obtain ⟨i, hi, ha⟩ := mem_allSlabs.mp ha
    have hholds := h.describes.heap.holds i hi a ha
    obtain ⟨hpos, -⟩ := slabCapacity_spec i hi
    rw [← Nat.add_mul, (hholds.figures hi).2, hholds.objSize]
    exact ⟨rfl, Nat.le_mul_of_pos_right _ hpos⟩
  have hsum := congrArg List.sum (List.map_congr_left fun a ha => (hroom a ha).1)
  rw [List.sum_map_add] at hsum
  have hcount := List.sum_le_sum fun a ha => (hroom a ha).2
  refine ⟨out, hres, ?_, h.live, ?_, ?_⟩
  · rw [halloc, BitVec.toNat_ofNat, hlive]
    exact Nat.mod_eq_of_lt (by omega)
  · rw [hused, BitVec.toNat_ofNat, h.sum_classSize]
    exact Nat.mod_eq_of_lt (by omega)
  · rw [hused, hfree, BitVec.toNat_ofNat, BitVec.toNat_ofNat, Nat.mod_eq_of_lt (by omega),
      Nat.mod_eq_of_lt (by omega), hsum]
    exact (h.describes.heap.perm_slabPages.map _).sum_eq

end Slab

/-! ### Every run -/

/-- The live allocations after calls and their answers. -/
def slabOwnedAfter (trace : List (SlabCall × U32)) : List (U32 × U32) := trace.foldl slabOwned []

/-- **The statistics agree with the live allocations.** After any calls, the loops of
`heap_first_fit_stats` and `heap_slab_stats` end; the number of allocations is that of the pointers the
callers hold; the figures of the first-fit heap make up the heap, and those of the slab heap are the
class sizes of the live allocations and the room of the slabs. -/
theorem heapStats_of_live :
    (∀ (R : HeapRegion) (s₀ : HeapState) (calls : List HeapCall), ∃ c answers out,
      (firstFitMachine R s₀).run calls = some (c, answers) ∧ heapFirstFitStats c.heap = some out ∧
        out.OfFirstFit c) ∧
    ∀ (R : SlabRegion) (s₀ : SlabState) (calls : List SlabCall), ∃ c answers out,
      (slabMachine R s₀).run calls = some (c, answers) ∧ heapSlabStats c.heap = some out ∧
        out.OfSlab c R (slabOwnedAfter (calls.zip answers)) := by
  constructor
  · intro R s₀ calls
    obtain ⟨c, answers, hrun, bs, h⟩ := Machine.run_invariant (M := firstFitMachine R s₀)
      (I := fun c => ∃ bs, c.Describes R bs) ⟨_, heapFirstFitInit_describes R s₀⟩
      (fun _ call ⟨_, h⟩ => heapCall_describes h call) calls
    obtain ⟨out, hres, hout⟩ := h.stats
    exact ⟨c, answers, out, hrun, hres, hout⟩
  · intro R s₀ calls
    obtain ⟨c, answers, hrun, part, full, h⟩ := Machine.runFrom_trace (M := slabMachine R s₀)
      (R := fun c owned => ∃ part full, c.Owns R part full owned) slabOwned
      (fun _ _ call ⟨_, _, h⟩ => by
        obtain ⟨c', answer, hres, part', full', howns, -⟩ := slabCall_owns h call
        exact ⟨c', answer, hres, part', full', howns⟩)
      calls (slabMachine R s₀).init [] ⟨_, _, heapSlabInit_owns R s₀⟩
    obtain ⟨out, hres, hout⟩ := h.stats
    exact ⟨c, answers, out, hrun, hres, hout⟩

end Microkernel.Heap
