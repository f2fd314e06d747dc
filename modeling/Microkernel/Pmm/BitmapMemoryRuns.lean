import Microkernel.Pmm.BitmapMemoryInit
import Microkernel.Pmm.BitmapReserved

/-! # The bitmap allocator in physical memory, from `init` on

What is true of `pmm_bitmap_init` and of every run of `pmm_bitmap_alloc_page` and `pmm_bitmap_free_page`
behind it, with the bitmaps in the memory that they manage:

* **`pmmBitmapInit_safe_iff`** — initialisation is safe exactly when every bitmap is stored between
  1 MiB and 1 GiB;
* **`bitmap_run`** — then in every run the counters agree with the bits, and pages are handed out once;
* **`pmmBitmap_protects`** — and no page that is reserved is returned, unless a caller frees it first.

All three come from `run_view`: the memory shows at every time what the allocator whose regions have
bytes of their own has. Where a bitmap is stored above 1 GiB they fail; `aliasMap` is a map with two
regions whose bitmaps are one. -/

namespace Microkernel.Pmm

open BitmapMemory (Steps)

/-! ### Regions stay where they are -/

namespace InMemory

section
variable {s : BitmapMemory} {l : List PmmRegion} {m : PhysicalMemory} {t : U32} {addr : U32}

/-- A list of regions keeps its own headers. -/
theorem sameHeader_self (l : List PmmRegion) : List.Forall₂ PmmRegion.SameHeader l l :=
  List.forall₂_same.mpr fun _ _ => rfl

/-- Keeping the headers twice is keeping them. -/
theorem sameHeader_trans {l₁ l₂ l₃ : List PmmRegion} (h : List.Forall₂ PmmRegion.SameHeader l₁ l₂)
    (h' : List.Forall₂ PmmRegion.SameHeader l₂ l₃) : List.Forall₂ PmmRegion.SameHeader l₁ l₃ :=
  BitmapPmm.forall₂_comp (fun _ _ _ hr hr' => hr.trans hr') h h'

/-- Marking a page writes the free counter of the header only. -/
theorem markUsed_header (r : PmmRegion) : r.SameHeader (r.markUsed addr m t).1 := by
  unfold PmmRegion.markUsed
  dsimp only
  split
  · rfl
  split
  · rfl
  split <;> rfl

/-- So does releasing one. -/
theorem release_header (r : PmmRegion) : r.SameHeader (r.release addr m t).1 := by
  unfold PmmRegion.release
  dsimp only
  split
  · rfl
  split <;> rfl

/-- And so does the loop that frees the tail bits. -/
theorem freeTail_header (n i : ℕ) (r : PmmRegion) (m : PhysicalMemory) :
    r.SameHeader (PmmRegion.freeTail n i r m).1 := by
  induction n generalizing i r m with
  | zero => rfl
  | succ n ih =>
    have hone : r.SameHeader { r with free := r.free + 1#32 } := rfl
    exact hone.trans (ih ..)

/-- What is done at the region of an address keeps the headers of all of them. -/
theorem onRegionOf_headers {f : PmmRegion → PhysicalMemory → U32 → PmmRegion × PhysicalMemory × U32}
    (hf : ∀ (r : PmmRegion) m t, r.SameHeader (f r m t).1) (s : BitmapMemory) (addr : U32) :
    List.Forall₂ PmmRegion.SameHeader s.regions (onRegionOf s addr f).regions := by
  show List.Forall₂ _ s.regions (atRegionOf addr f s.memory s.totalFree s.regions).1
  induction s.regions with
  | nil => exact .nil
  | cons r l ih =>
    rw [atRegionOf]
    split
    · exact .cons (hf r _ _) (sameHeader_self l)
    · exact .cons rfl ih

/-- Marking by address keeps every header. -/
theorem markUsedByAddr_headers (addr : U32) (s : BitmapMemory) :
    List.Forall₂ PmmRegion.SameHeader s.regions (bitmapMarkUsedByAddr addr s).regions := by
  unfold bitmapMarkUsedByAddr
  split
  · exact sameHeader_self _
  · exact onRegionOf_headers (fun r _ _ => markUsed_header r) s _

/-- `pmm_bitmap_free_page` keeps every header. -/
theorem free_headers (page : U32) (s : BitmapMemory) :
    List.Forall₂ PmmRegion.SameHeader s.regions (pmmBitmapFreePage page s).regions := by
  unfold pmmBitmapFreePage
  split
  · exact sameHeader_self _
  split
  · exact sameHeader_self _
  · exact onRegionOf_headers (fun r _ _ => release_header r) s _

/-- Counting again keeps every header. -/
theorem resync_headers (s : BitmapMemory) :
    List.Forall₂ PmmRegion.SameHeader s.regions (pmmResyncFreeCount s).regions := by
  show List.Forall₂ _ s.regions (s.regions.map _)
  rw [List.forall₂_map_right_iff, List.forall₂_same]
  exact fun _ _ => rfl

/-- Replacing one region by one with the same header keeps the headers. -/
theorem set_headers {ri : ℕ} {r r' : PmmRegion} (hr : l[ri]? = some r) (h : r.SameHeader r') :
    List.Forall₂ PmmRegion.SameHeader l (l.set ri r') := by
  refine List.forall₂_iff_get.mpr ⟨List.length_set.symm, fun j hj hj' => ?_⟩
  rw [List.get_eq_getElem, List.get_eq_getElem, List.getElem_set]
  by_cases heq : ri = j
  · subst heq
    obtain ⟨hlt, rfl⟩ := List.getElem?_eq_some_iff.mp hr
    rw [if_pos rfl]
    exact h
  · rw [if_neg heq]
    rfl

/-- `pmm_bitmap_alloc_page` keeps every header. -/
theorem alloc_headers (s : BitmapMemory) :
    List.Forall₂ PmmRegion.SameHeader s.regions (pmmBitmapAllocPage s).1.regions := by
  have hscan : ∀ n off q, bitmapAllocScan s n off = some q →
      List.Forall₂ PmmRegion.SameHeader s.regions q.1.regions := by
    intro n
    induction n with
    | zero => exact fun _ _ hq => by cases hq
    | succ n ih =>
      intro off q hq
      rw [bitmapAllocScan, Option.or_eq_some_iff] at hq
      rcases hq with hq | ⟨-, hq⟩
      · obtain ⟨r, hr, hq⟩ := Option.bind_eq_some_iff.mp hq
        split at hq
        · cases hq
        · obtain ⟨i, -, rfl⟩ := Option.map_eq_some_iff.mp hq
          exact set_headers hr rfl
      · exact ih _ q hq
  unfold pmmBitmapAllocPage
  split
  · exact sameHeader_self _
  split
  · exact sameHeader_self _
  cases hq : bitmapAllocScan s s.regions.length 0 with
  | none => exact resync_headers s
  | some q => exact hscan _ _ q hq

/-- Marking a range keeps every header. -/
theorem markUsedRange_headers {start stop : U32} {s s' : BitmapMemory}
    (h : bitmapMarkUsedRange start stop s = some s') :
    List.Forall₂ PmmRegion.SameHeader s.regions s'.regions := by
  have hloop : ∀ n a s, bitmapMarkUsedLoop (alignUp stop pageSize) n a s = some s' →
      List.Forall₂ PmmRegion.SameHeader s.regions s'.regions := by
    intro n
    induction n with
    | zero => exact fun _ _ h => by cases h
    | succ n ih =>
      intro a s h
      rw [bitmapMarkUsedLoop] at h
      split at h
      · exact sameHeader_trans (markUsedByAddr_headers a s) (ih _ _ h)
      · obtain rfl := Option.some.inj h
        exact sameHeader_self _
  unfold bitmapMarkUsedRange at h
  split at h
  · obtain rfl := Option.some.inj h
    exact sameHeader_self _
  split at h
  · obtain rfl := Option.some.inj h
    exact sameHeader_self _
  · exact hloop _ _ s h

/-- Freeing a list of pages keeps every header. -/
theorem freeAll_headers (l : List U32) (s : BitmapMemory) :
    List.Forall₂ PmmRegion.SameHeader s.regions
      (l.foldl (fun s page => pmmBitmapFreePage page s) s).regions := by
  induction l generalizing s with
  | nil => exact sameHeader_self _
  | cons a l ih => exact sameHeader_trans (free_headers a s) (ih _)

/-- The allocations of the self test keep every header. -/
theorem selftestAlloc_headers (n : ℕ) (s : BitmapMemory) :
    List.Forall₂ PmmRegion.SameHeader s.regions (selftestAlloc n s).1.regions := by
  induction n generalizing s with
  | zero => exact sameHeader_self _
  | succ n ih =>
    rw [selftestAlloc]
    dsimp only
    split
    · exact alloc_headers s
    · exact sameHeader_trans (alloc_headers s) (ih _)

/-- The self test keeps every header. -/
theorem selftest_headers {s s' : BitmapMemory} (h : pmmSelftest s = some s') :
    List.Forall₂ PmmRegion.SameHeader s.regions s'.regions := by
  have hpath : ∀ m, List.Forall₂ PmmRegion.SameHeader s.regions
      ((selftestAlloc 4 s).2.foldl (fun s page => pmmBitmapFreePage page s)
        { (selftestAlloc 4 s).1 with memory := m }).regions := fun m =>
    sameHeader_trans (selftestAlloc_headers 4 s)
      (freeAll_headers (selftestAlloc 4 s).2 { (selftestAlloc 4 s).1 with memory := m })
  unfold pmmSelftest at h
  split at h
  · obtain rfl := Option.some.inj h
    exact sameHeader_self _
  split at h
  · obtain rfl := Option.some.inj h
    exact sameHeader_self _
  dsimp only at h
  split at h
  · obtain rfl := Option.some.inj h
    exact hpath _
  split at h
  · obtain rfl := Option.some.inj h
    exact hpath _
  · obtain ⟨m, -, rfl⟩ := Option.map_eq_some_iff.mp h
    exact hpath m

/-- The layouts add their regions behind those that are there. -/
theorem addLayouts_headers {layouts : List RegionLayout} {q q' : List PmmRegion × PhysicalMemory}
    (h : layouts.foldlM (fun q l => pmmAddRegion l q) q = some q') :
    ∃ l, q'.1 = q.1 ++ l ∧ List.Forall₂ PmmRegion.SameHeader (layouts.map regionOf) l := by
  induction layouts generalizing q with
  | nil =>
    obtain rfl := Option.some.inj h
    exact ⟨[], (List.append_nil _).symm, .nil⟩
  | cons l layouts ih =>
    rw [List.foldlM_cons] at h
    obtain ⟨q₁, hadd, h⟩ := Option.bind_eq_some_iff.mp h
    obtain ⟨r, hinit, rfl⟩ := Option.map_eq_some_iff.mp hadd
    obtain ⟨rs, hq', hrs⟩ := ih h
    unfold PmmRegion.initAndFreeTail at hinit
    obtain ⟨m, -, rfl⟩ := Option.map_eq_some_iff.mp hinit
    have hzero : (regionOf l).SameHeader { regionOf l with free := 0#32 } := rfl
    exact ⟨_ :: rs, by rw [hq', List.append_assoc, List.singleton_append],
      .cons (hzero.trans (freeTail_header ..)) hrs⟩

/-- **The regions of the initialised allocator are those of the layouts**, wherever their bitmaps are. -/
theorem init_headers {memory : PhysicalMemory} {entries : List Mb2MmapEntry} {kernel info : BootBlock}
    {s : BitmapMemory} (h : pmmBitmapInit memory entries kernel info = some s) :
    List.Forall₂ PmmRegion.SameHeader ((bitmapLayouts entries kernel info).map regionOf) s.regions := by
  unfold pmmBitmapInit at h
  rw [bitmapAddRegions_eq] at h
  obtain ⟨q, hadd, h⟩ := Option.bind_eq_some_iff.mp h
  obtain ⟨l, hq, hl⟩ := addLayouts_headers hadd
  have hq : q.1 = l := hq
  subst hq
  split at h
  · rename_i hnil
    obtain rfl := Option.some.inj h
    rw [List.length_eq_zero_iff] at hnil
    show List.Forall₂ _ _ []
    rw [← hnil]
    exact hl
  · dsimp only at h
    obtain ⟨s₁, hs₁, h⟩ := Option.bind_eq_some_iff.mp h
    obtain ⟨s₂, hs₂, h⟩ := Option.bind_eq_some_iff.mp h
    have hkernel : List.Forall₂ PmmRegion.SameHeader q.1 s₁.regions := markUsedRange_headers hs₁
    exact sameHeader_trans hl (sameHeader_trans hkernel (sameHeader_trans (markUsedRange_headers hs₂)
      (sameHeader_trans (resync_headers s₂) (selftest_headers h))))

end

end InMemory

/-! ### What is safe -/

namespace PmmRegion

/-- The address is in page `i` of the region. -/
def InPage (r : PmmRegion) (i x : ℕ) : Prop :=
  (r.indexToAddr i).toNat ≤ x ∧ x < (r.indexToAddr i).toNat + 4096

/-- The address is in a managed page. -/
def Manages (r : PmmRegion) (x : ℕ) : Prop := ∃ i < r.pages.toNat, r.InPage i x

/-- The physical address is one that the pointer shows in the storage of the bitmap. -/
def Stores (r : PmmRegion) (x : ℕ) : Prop :=
  ∃ k < r.bitmapStorageBytes.toNat, ∃ a, bootTranslate (r.bitmap + BitVec.ofNat 32 k) = some a ∧
    a.toNat = x

end PmmRegion

/-- **The initialised allocator is safe.** -/
structure BitmapMemory.Safe (s : BitmapMemory) (entries : List Mb2MmapEntry) (kernel info : BootBlock) :
    Prop where
  /-- Every managed page lies in one usable entry, at 1 MiB or above. -/
  usable : ∀ r ∈ s.regions, ∀ i < r.pages.toNat,
    ∃ e ∈ entries, e.Usable ∧ ∀ x, r.InPage i x → 2 ^ 20 ≤ x ∧ e.Has x
  /-- Different regions have no managed address in common. -/
  disjoint : s.regions.Pairwise fun r r' => ∀ x, r.Manages x → ¬ r'.Manages x
  /-- Every byte of a bitmap is shown, and is in the region that the bitmap is for. -/
  storage_own : ∀ r ∈ s.regions, ∀ k < r.bitmapStorageBytes.toNat,
    ∃ a, bootTranslate (r.bitmap + BitVec.ofNat 32 k) = some a ∧ r.Manages a.toNat
  /-- No bitmap meets another region. -/
  storage_disjoint : s.regions.Pairwise fun r r' => ∀ x,
    (r.Stores x → ¬ r'.Manages x ∧ ¬ r'.Stores x) ∧ (r'.Stores x → ¬ r.Manages x)
  /-- No bitmap meets the kernel image or the Multiboot2 information. -/
  storage : ∀ r ∈ s.regions, ∀ x, r.Stores x → ¬ kernel.Has x ∧ ¬ info.Has x
  /-- A free page avoids both blocks and every bitmap. -/
  free : ∀ r ∈ s.regions, ∀ i < r.pages.toNat, r.bitmapTest s.memory i = false → ∀ x, r.InPage i x →
    ¬ kernel.Has x ∧ ¬ info.Has x ∧ ∀ r' ∈ s.regions, ¬ r'.Stores x

section
variable {s : BitmapMemory} {r : PmmRegion} {m memory : PhysicalMemory} {entries : List Mb2MmapEntry}
  {kernel info : BootBlock} {x : ℕ}

/-- What a pointer below 1 GiB shows is the storage. -/
theorem PmmRegion.Reaches.stores_iff (h : r.Reaches) (m : PhysicalMemory) :
    r.Stores x ↔ (r.view m).Stores x := by
  constructor
  · rintro ⟨k, hk, a, ha, rfl⟩
    rw [h.translate hk] at ha
    exact ⟨k, hk, congrArg BitVec.toNat (Option.some.inj ha).symm⟩
  · rintro ⟨k, hk, rfl⟩
    exact ⟨k, hk, _, h.translate hk, rfl⟩

/-- What is safe of the allocator whose regions have bytes of their own is safe in memory. -/
theorem BitmapMemory.Reaches.safe (hs : s.Reaches) (h : s.view.Safe entries kernel info)
    (hpages : ∀ r ∈ s.regions, r.bitmapStorageBytes.toNat ≤ r.pages.toNat * 4096)
    (hapart : s.view.Apart) : s.Safe entries kernel info := by
  have hview : ∀ r ∈ s.regions, r.view s.memory ∈ s.view.regions := fun r hr => List.mem_map_of_mem hr
  have hstores : ∀ r ∈ s.regions, ∀ x, r.Stores x ↔ (r.view s.memory).Stores x := fun r hr x =>
    (hs.regions r hr).stores_iff s.memory
  have hpair : ∀ {R : BitmapRegion → BitmapRegion → Prop}, s.view.regions.Pairwise R →
      s.regions.Pairwise fun r r' => R (r.view s.memory) (r'.view s.memory) := fun hR =>
    List.pairwise_map.mp hR
  refine ⟨fun r hr => h.usable _ (hview r hr), hpair h.disjoint, fun r hr k hk => ?_, ?_,
    fun r hr x hx => h.storage _ (hview r hr) x ((hstores r hr x).mp hx),
    fun r hr i hi hbit x hx => ?_⟩
  · -- the storage is in the first pages of the region
    have hreach := hs.regions r hr
    have hsize := hpages r hr
    have hfits := hapart.fits _ (hview r hr)
    have hi : k / 4096 < r.pages.toNat := by omega
    refine ⟨_, hreach.translate hk, k / 4096, hi, ?_⟩
    have haddr : (r.indexToAddr (k / 4096)).toNat = r.base.toNat + k / 4096 * 4096 := hfits.indexToAddr hi
    unfold PmmRegion.InPage
    rw [hreach.toNat_add hk, haddr]
    omega
  · refine (hpair h.storage_disjoint).imp_of_mem fun {r r'} hr hr' hdis x => ?_
    rw [hstores r hr, hstores r' hr']
    exact hdis x
  · have hreach := hs.regions r hr
    rw [← PmmRegion.bitmapTest_view (hi.trans_le hreach.pages_le)] at hbit
    obtain ⟨hk, hinfo, hfree⟩ := h.free _ (hview r hr) i hi hbit x hx
    exact ⟨hk, hinfo, fun r' hr' hst => hfree _ (hview r' hr') ((hstores r' hr' x).mp hst)⟩

/-- **Where a bitmap is stored above 1 GiB initialisation is not safe**: its pointer shows no memory of
its region. -/
theorem BitmapMemory.Safe.storesLow (hinit : InMemory.pmmBitmapInit memory entries kernel info = some s)
    (h : s.Safe entries kernel info) : StoresLow entries kernel info := by
  intro l hl
  obtain ⟨r, hr, hsame⟩ := BitmapPmm.forall₂_mem (InMemory.init_headers hinit) (List.mem_map_of_mem hl)
  have hbase : r.base = l.managedStart := by rw [hsame]; rfl
  have hpages : r.pages = l.pages := by rw [hsame]; rfl
  have hptr : r.bitmap = physToVirt l.managedStart := by rw [hsame]; rfl
  have hstorage : r.bitmapStorageBytes = l.bitmapStorageBytes := by rw [hsame]; rfl
  have hshape := bitmapLayouts_shape hl
  have hlt := hshape.bitmapPages_lt
  have hsize := hshape.storage
  have hbytes := hshape.bytes
  have hle := hshape.bytes_le
  have hmib : 2 ^ 20 ≤ l.managedStart.toNat := by
    obtain ⟨e, -, -, hpage⟩ := h.usable r hr 0 (by rw [hpages]; omega)
    have hzero : r.indexToAddr 0 = l.managedStart := by
      rw [PmmRegion.indexToAddr, hbase]
      exact BitVec.eq_of_toNat_eq (by simp)
    refine (hpage l.managedStart.toNat ⟨?_, ?_⟩).1 <;> rw [hzero]
    omega
  refine ⟨hmib, ?_⟩
  by_contra hhigh
  -- the first byte of the storage at 1 GiB or above
  obtain ⟨k, hk⟩ : ∃ k, k = 2 ^ 30 - l.managedStart.toNat := ⟨_, rfl⟩
  have hl32 := l.managedStart.isLt
  have hstor32 := l.bitmapStorageBytes.isLt
  obtain ⟨a, ha, i, hi, hin⟩ := h.storage_own r hr k (by rw [hstorage]; omega)
  rw [hptr] at ha
  -- its pointer has wrapped to low memory, which is not of the region
  have hwrap := bootTranslate_physToVirt_wraps (by omega) (by omega) ha
  have halow := (bootTranslate_eq_some_iff.mp ha).1
  obtain ⟨-, e, -, -, hlayout, -⟩ := mem_take_filterMap.mp hl
  have hfits := entryLayout_fits hlayout (by omega)
  rw [hpages] at hi
  have haddr : (r.indexToAddr i).toNat = l.managedStart.toNat + i * 4096 := by
    rw [PmmRegion.indexToAddr, hbase, BitVec.toNat_add, BitVec.toNat_mul, BitVec.toNat_ofNat,
      show pageSize.toNat = 4096 from rfl]
    omega
  unfold PmmRegion.InPage at hin
  omega

end

/-- **Initialisation is safe exactly when every bitmap is stored between 1 MiB and 1 GiB.** -/
theorem pmmBitmapInit_safe_iff (memory : PhysicalMemory) {entries : List Mb2MmapEntry}
    (hdisjoint : DisjointUsable entries) (hrange : StartsInRange entries) (kernel info : BootBlock) :
    (∃ s, InMemory.pmmBitmapInit memory entries kernel info = some s ∧ s.Safe entries kernel info) ↔
      StoresLow entries kernel info := by
  constructor
  · rintro ⟨s, hinit, hsafe⟩
    exact hsafe.storesLow hinit
  · intro hlow
    have hkeeps := hlow.keepsOffLastPages
    obtain ⟨s, hinit, hview, hreach⟩ :=
      pmmBitmapInit_view memory hlow (hlow.layoutsApart hdisjoint hrange)
    obtain ⟨p, hp, hsafe⟩ := hkeeps.safe hdisjoint hrange (fun _ => 0#8)
    obtain rfl := Option.some.inj (hview.symm.trans hp)
    obtain ⟨p, hp, -, hplaced, -⟩ := pmmBitmapInit_regions (fun _ => 0#8) entries kernel info
    obtain rfl := Option.some.inj (hview.symm.trans hp)
    refine ⟨s, hinit, hreach.safe hsafe (fun r hr => ?_) (hkeeps.apart hdisjoint hrange hplaced)⟩
    obtain ⟨l, hl, hrl⟩ := BitmapPmm.forall₂_mem hplaced.flip
      (List.mem_map_of_mem (f := (·.view s.memory)) hr)
    have hst : r.bitmapStorageBytes = l.bitmapStorageBytes := hrl.storage
    have hpg : r.pages = l.pages := hrl.pages
    have hstorage := (bitmapLayouts_shape hl).storage
    have hlt := (bitmapLayouts_shape hl).bitmapPages_lt
    rw [hst, hpg]
    omega

/-! ### Two maps -/

/-- Memory from 1 MiB to 16 MiB and from 32 MiB to 48 MiB. -/
def gapMap : List Mb2MmapEntry := [⟨0x100000#64, 0xF00000#64, 1#32⟩, ⟨0x2000000#64, 0x1000000#64, 1#32⟩]

/-- The two entries of the map with a gap do not overlap. -/
theorem gapMap_disjoint : DisjointUsable gapMap := by
  refine List.pairwise_pair.mpr fun _ _ a h₁ h₂ => ?_
  have h₁ : a < 0x100000 + 0xF00000 := h₁.2
  have h₂ : 0x2000000 ≤ a := h₂.1
  omega

/-- Its entries start in range. -/
theorem gapMap_starts : StartsInRange gapMap := by
  intro e he _
  rcases List.mem_cons.mp he with rfl | he
  · decide
  · rw [List.mem_singleton.mp he]
    decide

/-- Eight pages behind the kernel image, and eight pages 1 GiB above them. -/
def aliasMap : List Mb2MmapEntry :=
  [⟨0x102000#64, 0x8000#64, 1#32⟩, ⟨0x40102000#64, 0x8000#64, 1#32⟩]

/-- Multiboot2 information in six of the eight lower pages. -/
def wideInfo : BootBlock := ⟨0x103000#32, 0x109000#32, by decide, by decide⟩

/-- The two entries that share their bytes through the wrapped pointer do not overlap. -/
theorem aliasMap_disjoint : DisjointUsable aliasMap := by
  refine List.pairwise_pair.mpr fun _ _ a h₁ h₂ => ?_
  have h₁ : a < 0x102000 + 0x8000 := h₁.2
  have h₂ : 0x40102000 ≤ a := h₂.1
  omega

/-- Their starts are in range. -/
theorem aliasMap_starts : StartsInRange aliasMap := by
  intro e he _
  rcases List.mem_cons.mp he with rfl | he
  · decide
  · rw [List.mem_singleton.mp he]
    decide

/-- The two regions for them, whose bitmaps are at `0x102000` both: one page is free in each. -/
def aliasRegions : List PmmRegion :=
  [⟨0x102000#32, 8#32, 0xC0102000#32, 1#32, 0x1000#32, 1#32, 1#32⟩,
    ⟨0x40102000#32, 8#32, 0x00102000#32, 1#32, 0x1000#32, 1#32, 1#32⟩]

/-- What `pmm_bitmap_init` makes of it, and the first allocation behind. -/
theorem aliasMap_init :
    ∃ s, InMemory.pmmBitmapInit (fun _ => 0#8) aliasMap smallKernel wideInfo = some s ∧
      s.regions = aliasRegions ∧ (InMemory.pmmBitmapAllocPage s).2 = 0x109000#32 ∧
      ∃ r r', (InMemory.pmmBitmapAllocPage s).1.regions = [r, r'] ∧ r'.free = 1#32 ∧ r'.pages = 8#32 ∧
        ∀ i < 8, r'.bitmapTest (InMemory.pmmBitmapAllocPage s).1.memory i = true := by
  refine ⟨_, rfl, ?_, ?_, _, _, rfl, ?_, ?_, ?_⟩ <;> decide +kernel

/-- The case of two regions with a gap between them. -/
theorem pmmBitmapInit_safe_iff_gap :
    (∃ s, InMemory.pmmBitmapInit (fun _ => 0#8) gapMap lowKernel lowInfo = some s ∧
      s.Safe gapMap lowKernel lowInfo) ↔ StoresLow gapMap lowKernel lowInfo :=
  pmmBitmapInit_safe_iff (fun _ => 0#8) gapMap_disjoint gapMap_starts lowKernel lowInfo

/-- With memory 1 GiB above other memory the bitmap for the upper pages lies in the lower ones. -/
theorem pmmBitmapInit_unsafe :
    ¬ ∀ memory entries kernel info, DisjointUsable entries → StartsInRange entries →
      ∃ s, InMemory.pmmBitmapInit memory entries kernel info = some s ∧ s.Safe entries kernel info := by
  intro hall
  obtain ⟨s, hinit, hsafe⟩ := hall (fun _ => 0#8) aliasMap smallKernel wideInfo aliasMap_disjoint
    aliasMap_starts
  obtain ⟨s', hinit', hregions, -⟩ := aliasMap_init
  obtain rfl := Option.some.inj (hinit.symm.trans hinit')
  have hdis := hsafe.storage_disjoint
  rw [hregions] at hdis
  -- the byte at `0x102000` is one of the lower region and of the upper bitmap
  have hmeets := (List.pairwise_pair.mp hdis 0x102000).2
  refine hmeets ⟨0, by decide, 0x102000#32, by decide, rfl⟩ ⟨0, by decide, ?_⟩
  unfold PmmRegion.InPage
  decide

/-! ### Runs -/

/-- One call and its answer; `pmm_bitmap_free_page` answers nothing. -/
def bitmapMemoryCall (s : BitmapMemory) : PmmCall → Option (BitmapMemory × U32)
  | .allocPage => some (InMemory.pmmBitmapAllocPage s)
  | .freePage page => some (InMemory.pmmBitmapFreePage page s, 0#32)

/-- The allocator in memory as a machine. -/
def bitmapMemoryMachine (s : BitmapMemory) : Machine BitmapMemory PmmCall U32 := ⟨s, bitmapMemoryCall⟩

namespace BitmapMemory

variable {s s₀ : BitmapMemory} {live : List U32} {kernel info : BootBlock} {ri i : ℕ} {a : U32}

/-- Every call is seen as the call of the other allocator. -/
theorem Reaches.call (hs : s.Reaches) (call : PmmCall) :
    ∃ s' answer, bitmapMemoryCall s call = some (s', answer) ∧
      bitmapCall s.view call = some (s'.view, answer) ∧ s'.Reaches := by
  cases call with
  | allocPage =>
    obtain ⟨hstep, hanswer⟩ := hs.alloc_steps
    refine ⟨(InMemory.pmmBitmapAllocPage s).1, (InMemory.pmmBitmapAllocPage s).2, rfl, ?_,
      hstep.reaches hs⟩
    rw [hstep.view, hanswer]
    rfl
  | freePage page =>
    have hstep := hs.free_steps page
    refine ⟨InMemory.pmmBitmapFreePage page s, 0#32, rfl, ?_, hstep.reaches hs⟩
    rw [hstep.view]
    rfl

/-- **So is every run.** -/
theorem Reaches.run_view (hs : s.Reaches) (calls : List PmmCall) :
    ∃ s' answers, (bitmapMemoryMachine s₀).runFrom s calls = some (s', answers) ∧
      (bitmapMachine s₀.view).runFrom s.view calls = some (s'.view, answers) ∧ s'.Reaches := by
  obtain ⟨s', p', answers, hrun, hrun', hreach, rfl⟩ := Machine.runFrom_simulation
    (M := bitmapMemoryMachine s₀) (N := bitmapMachine s₀.view)
    (R := fun s p => s.Reaches ∧ s.view = p) (fun s p call ⟨hs, hp⟩ => by
      subst hp
      obtain ⟨s', answer, hcall, hview, hreach⟩ := hs.call call
      exact ⟨s', s'.view, answer, hcall, hview, hreach, rfl⟩) calls s s.view ⟨hs, rfl⟩
  exact ⟨s', answers, hrun, hrun', hreach⟩

/-! ### Every run is correct -/

/-- Bit `i` of region `ri`, if there is this region. -/
def bit (s : BitmapMemory) (ri i : ℕ) : Option Bool := s.regions[ri]?.map (·.bitmapTest s.memory i)

/-- `a` is the address of page `i` of region `ri`. -/
def HasPage (s : BitmapMemory) (ri i : ℕ) (a : U32) : Prop :=
  ∃ r, s.regions[ri]? = some r ∧ i < r.pages.toNat ∧ r.indexToAddr i = a

/-- Bit `i` of region `ri` is one of the storage. -/
def HasBit (s : BitmapMemory) (ri i : ℕ) : Prop :=
  ∃ r, s.regions[ri]? = some r ∧ i < 8 * r.bitmapStorageBytes.toNat

/-- **What holds after every run**, when the pages `live` were returned and not freed since. -/
structure Correct (s : BitmapMemory) (live : List U32) : Prop where
  /-- The counter of a region is the number of its zero bits. -/
  regionFree : ∀ r ∈ s.regions,
    r.free.toNat = Nat.count (fun i => r.bitmapTest s.memory i = false) r.pages.toNat
  /-- The total counter is the sum. -/
  totalFree : s.totalFree.toNat = (s.regions.map (·.free.toNat)).sum
  /-- The bits past the last page are ones. -/
  tail : ∀ r ∈ s.regions, ∀ i, r.pages.toNat ≤ i → i < 8 * r.bitmapBytes.toNat →
    r.bitmapTest s.memory i = true
  /-- Allocation fails exactly when no managed bit is zero. -/
  alloc_null : (InMemory.pmmBitmapAllocPage s).2 = 0#32 ↔
    ∀ r ∈ s.regions, ∀ i < r.pages.toNat, r.bitmapTest s.memory i = true
  /-- Otherwise it returns a managed page that is not in use, and changes the bit of this page alone. -/
  alloc_page : (InMemory.pmmBitmapAllocPage s).2 ≠ 0#32 →
    (InMemory.pmmBitmapAllocPage s).2.PageAligned ∧
    (∃ r ∈ s.regions, r.containsAddr (InMemory.pmmBitmapAllocPage s).2 = true) ∧
    (InMemory.pmmBitmapAllocPage s).2 ∉ live ∧
    ∃ ri i, s.HasPage ri i (InMemory.pmmBitmapAllocPage s).2 ∧ s.bit ri i = some false ∧
      ∀ rj j, s.HasBit rj j → (InMemory.pmmBitmapAllocPage s).1.bit rj j =
        if rj = ri ∧ j = i then some true else s.bit rj j
  /-- A free of an unaligned, unmanaged or free page changes nothing. -/
  free_same : ∀ a : U32, ¬ a.PageAligned ∨ (∀ r ∈ s.regions, r.containsAddr a = false) ∨
    (∃ ri i, s.HasPage ri i a ∧ s.bit ri i = some false) → InMemory.pmmBitmapFreePage a s = s

/-- In every run the allocator is correct. -/
def RunsCorrectly (s : BitmapMemory) : Prop :=
  ∀ calls, ∃ s' answers, (bitmapMemoryMachine s).run calls = some (s', answers) ∧
    s'.Correct ((calls.zip answers).foldl bitmapLive [])

/-- A region as it is seen. -/
theorem view_getElem? (s : BitmapMemory) (ri : ℕ) :
    s.view.regions[ri]? = s.regions[ri]?.map (·.view s.memory) := List.getElem?_map

/-- The regions read from memory have the pages of the headers. -/
theorem hasPage_iff : s.view.HasPage ri i a ↔ s.HasPage ri i a := by
  constructor
  · rintro ⟨r', hr', hi, ha⟩
    rw [view_getElem?] at hr'
    obtain ⟨r, hr, rfl⟩ := Option.map_eq_some_iff.mp hr'
    exact ⟨r, hr, hi, ha⟩
  · rintro ⟨r, hr, hi, ha⟩
    exact ⟨r.view s.memory, by rw [view_getElem?, hr]; rfl, hi, ha⟩

/-- The bit of a page is the one in the byte that the header points at. -/
theorem HasBit.bit_view (h : s.HasBit ri i) : s.view.bit ri i = s.bit ri i := by
  obtain ⟨r, hr, hi⟩ := h
  rw [BitmapPmm.bit, BitmapMemory.bit, view_getElem?, hr, Option.map_some, Option.map_some,
    Option.map_some, PmmRegion.bitmapTest_view hi]

/-- A page of a region that the boot map reaches has its bit in memory. -/
theorem Reaches.hasBit (hs : s.Reaches) (h : s.HasPage ri i a) : s.HasBit ri i := by
  obtain ⟨r, hr, hi, -⟩ := h
  exact ⟨r, hr, hi.trans_le (hs.regions r (List.mem_of_getElem? hr)).pages_le⟩

/-- A step keeps which pages have a bit. -/
theorem HasBit.of_steps {s' : BitmapMemory} {p : BitmapPmm} (h : s.HasBit ri i) (hstep : Steps s s' p) :
    s'.HasBit ri i := by
  obtain ⟨r, hr, hi⟩ := h
  obtain ⟨hri, rfl⟩ := List.getElem?_eq_some_iff.mp hr
  have hlt : ri < s'.regions.length := by
    rw [← hstep.headers.length_eq]
    exact hri
  have hsame : s.regions[ri].SameHeader s'.regions[ri] := hstep.headers.get hri hlt
  refine ⟨_, List.getElem?_eq_getElem hlt, ?_⟩
  rw [hsame]
  exact hi

/-- What is promised of the bytes of the storages is promised of memory. -/
theorem Reaches.correct (hs : s.Reaches) (h : s.view.Correct live) : s.Correct live := by
  have hview : ∀ r ∈ s.regions, r.view s.memory ∈ s.view.regions := fun r hr => List.mem_map_of_mem hr
  have htest : ∀ r ∈ s.regions, ∀ i < r.pages.toNat,
      (r.view s.memory).bitmapTest i = r.bitmapTest s.memory i := fun r hr i hi =>
    PmmRegion.bitmapTest_view (hi.trans_le (hs.regions r hr).pages_le)
  obtain ⟨hstep, hanswer⟩ := hs.alloc_steps
  refine ⟨fun r hr => ?_, ?_, fun r hr i hi hi' => ?_, ?_, fun hne => ?_, fun a ha => ?_⟩
  · have hcount : r.free.toNat = _ := h.regionFree _ (hview r hr)
    rw [hcount]
    show Nat.count _ r.pages.toNat = _
    simp only [Nat.count_eq_card_filter_range]
    refine congrArg Finset.card (Finset.filter_congr fun i hi => ?_)
    rw [htest r hr i (Finset.mem_range.mp hi)]
  · have htotal : s.totalFree.toNat = ((s.regions.map (·.view s.memory)).map (·.free.toNat)).sum :=
      h.totalFree
    rw [htotal, List.map_map]
    rfl
  · -- the bits past the last page are in the storage too
    have hbytes := (hs.regions r hr).bytes_le
    rw [← PmmRegion.bitmapTest_view (by omega)]
    exact h.tail _ (hview r hr) i hi hi'
  · rw [hanswer, h.alloc_null]
    constructor
    · intro hall r hr i hi
      rw [← htest r hr i hi]
      exact hall _ (hview r hr) i hi
    · intro hall r' hr' i hi
      obtain ⟨r, hr, rfl⟩ := List.mem_map.mp hr'
      rw [htest r hr i hi]
      exact hall r hr i hi
  · rw [hanswer] at hne ⊢
    obtain ⟨haligned, ⟨r', hr', hin⟩, hlive, ri, i, hpage, hbit, hbits⟩ := h.alloc_page hne
    obtain ⟨r, hr, rfl⟩ := List.mem_map.mp hr'
    have hpage' := hasPage_iff.mp hpage
    refine ⟨haligned, ⟨r, hr, hin⟩, hlive, ri, i, hpage', ?_, fun rj j hrj => ?_⟩
    · rw [← (hs.hasBit hpage').bit_view, hbit]
    · rw [← (hrj.of_steps hstep).bit_view, hstep.view, hbits, ← hrj.bit_view]
  · -- a free that the other allocator ignores is ignored in memory
    refine hs.free_eq (h.free_same a (ha.imp_right (Or.imp (fun hall r' hr' => ?_) ?_)))
    · obtain ⟨r, hr, rfl⟩ := List.mem_map.mp hr'
      exact hall r hr
    · rintro ⟨ri, i, hpage, hbit⟩
      exact ⟨ri, i, hasPage_iff.mpr hpage, by rw [(hs.hasBit hpage).bit_view, hbit]⟩

end BitmapMemory

/-- **In every run the counters agree with the bits, and pages are handed out once**, whenever every
bitmap is stored between 1 MiB and 1 GiB. -/
theorem bitmap_run (memory : PhysicalMemory) {entries : List Mb2MmapEntry}
    (hdisjoint : DisjointUsable entries) (hrange : StartsInRange entries) {kernel info : BootBlock}
    (hlow : StoresLow entries kernel info) :
    ∃ s, InMemory.pmmBitmapInit memory entries kernel info = some s ∧ s.RunsCorrectly := by
  obtain ⟨s, hinit, hview, hreach⟩ :=
    pmmBitmapInit_view memory hlow (hlow.layoutsApart hdisjoint hrange)
  obtain ⟨p, hp, hserves⟩ := hlow.keepsOffLastPages.serves hdisjoint hrange (fun _ => 0#8)
  obtain rfl := Option.some.inj (hview.symm.trans hp)
  refine ⟨s, hinit, fun calls => ?_⟩
  obtain ⟨s', answers, hrun, hrun', hreach'⟩ := hreach.run_view calls
  obtain ⟨p', answers', hrun'', hserves'⟩ := hserves.run calls
  obtain ⟨rfl, rfl⟩ := Prod.mk.inj (Option.some.inj (hrun'.symm.trans hrun''))
  exact ⟨s', answers, hrun, hreach'.correct hserves'.correct⟩

/-- The case of two regions with a gap between them, over every sequence of calls. -/
theorem bitmap_run_gap :
    ∃ s, InMemory.pmmBitmapInit (fun _ => 0#8) gapMap lowKernel lowInfo = some s ∧ s.RunsCorrectly :=
  bitmap_run (fun _ => 0#8) gapMap_disjoint gapMap_starts (by decide)

/-- With two bitmaps in one, the counter of the upper region is one too high after an allocation. -/
theorem bitmap_run_lost :
    ¬ ∀ memory entries kernel info, DisjointUsable entries → StartsInRange entries →
      ∃ s, InMemory.pmmBitmapInit memory entries kernel info = some s ∧ s.RunsCorrectly := by
  intro hall
  obtain ⟨s, hinit, hruns⟩ := hall (fun _ => 0#8) aliasMap smallKernel wideInfo aliasMap_disjoint
    aliasMap_starts
  obtain ⟨s', hinit', -, -, r, r', hregions, hfree, hpages, hones⟩ := aliasMap_init
  obtain rfl := Option.some.inj (hinit.symm.trans hinit')
  obtain ⟨s', answers, hrun, hcorrect⟩ := hruns [.allocPage]
  have hstep : (bitmapMemoryMachine s).run [.allocPage] =
      some ((InMemory.pmmBitmapAllocPage s).1, [(InMemory.pmmBitmapAllocPage s).2]) := rfl
  obtain ⟨rfl, -⟩ := Prod.mk.inj (Option.some.inj (hstep.symm.trans hrun))
  -- its counter says 1, and it has no zero bit
  have hcount := hcorrect.regionFree r' (by rw [hregions]; simp)
  rw [hfree, hpages] at hcount
  have hzero : Nat.count (fun i => r'.bitmapTest (InMemory.pmmBitmapAllocPage s).1.memory i = false)
      (8#32).toNat = 0 := by
    rw [Nat.count_iff_forall_not]
    intro i hi
    rw [hones i hi]
    decide
  rw [hzero] at hcount
  exact absurd hcount (by decide)

/-! ### Reserved pages -/

namespace BitmapMemory

/-- The page at `a` has a part of a bitmap, of the kernel image or of the Multiboot2 information in it. -/
def IsReserved (s : BitmapMemory) (kernel info : BootBlock) (a : U32) : Prop :=
  ∃ x, (a.toNat ≤ x ∧ x < a.toNat + 4096) ∧
    (kernel.Has x ∨ info.Has x ∨ ∃ r ∈ s.regions, r.Stores x)

/-- A free of `a` gives up a reserved page: the address is aligned and in a region. -/
structure Exposes (s : BitmapMemory) (kernel info : BootBlock) (a : U32) : Prop where
  aligned : a.PageAligned
  managed : ∃ r ∈ s.regions, r.containsAddr a = true
  reserved : s.IsReserved kernel info a

variable {s : BitmapMemory} {kernel info : BootBlock} {a : U32}

/-- What is reserved is read off the headers alone. -/
theorem Reaches.isReserved_iff (hs : s.Reaches) :
    s.view.IsReserved kernel info a ↔ s.IsReserved kernel info a := by
  refine exists_congr fun x => and_congr_right fun _ => or_congr_right (or_congr_right ?_)
  constructor
  · rintro ⟨r', hr', hst⟩
    obtain ⟨r, hr, rfl⟩ := List.mem_map.mp hr'
    exact ⟨r, hr, ((hs.regions r hr).stores_iff s.memory).mpr hst⟩
  · rintro ⟨r, hr, hst⟩
    exact ⟨_, List.mem_map_of_mem hr, ((hs.regions r hr).stores_iff s.memory).mp hst⟩

/-- So is what a free would expose. -/
theorem Reaches.exposes_iff (hs : s.Reaches) :
    s.view.Exposes kernel info a ↔ s.Exposes kernel info a := by
  constructor
  · rintro ⟨haligned, ⟨r', hr', hin⟩, hreserved⟩
    obtain ⟨r, hr, rfl⟩ := List.mem_map.mp hr'
    exact ⟨haligned, ⟨r, hr, hin⟩, hs.isReserved_iff.mp hreserved⟩
  · rintro ⟨haligned, ⟨r, hr, hin⟩, hreserved⟩
    exact ⟨haligned, ⟨_, List.mem_map_of_mem hr, hin⟩, hs.isReserved_iff.mpr hreserved⟩

end BitmapMemory

/-- The layouts lie apart, when the entries that are not skipped do. -/
theorem StoresLow.layoutsApart_clips {entries : List Mb2MmapEntry} {kernel info : BootBlock}
    (hlow : StoresLow entries kernel info) (hdisjoint : DisjointUsable entries)
    (hrange : ClipsInRange entries) : LayoutsApart (bitmapLayouts entries kernel info) := by
  have hlow' : StoresLow (clippedEntries entries) kernel info := by
    unfold StoresLow
    rwa [bitmapLayouts_clipped]
  rw [← bitmapLayouts_clipped]
  exact hlow'.layoutsApart hdisjoint.clipped hrange.clipped

/-- **No reserved page is returned, unless a caller frees it first.** In every run after `init` whose
frees give up no reserved page, `pmm_alloc_page` returns no page with a part of a bitmap, of the kernel
image or of the Multiboot2 information. And whatever page is given up next, some later allocation returns
it. -/
theorem pmmBitmap_protects (memory : PhysicalMemory) {entries : List Mb2MmapEntry}
    (hdisjoint : DisjointUsable entries) (hrange : ClipsInRange entries) {kernel info : BootBlock}
    (hlow : StoresLow entries kernel info) :
    ∃ s, InMemory.pmmBitmapInit memory entries kernel info = some s ∧
      ∀ calls, (∀ a, .freePage a ∈ calls → ¬ s.Exposes kernel info a) →
        ∃ s' answers, (bitmapMemoryMachine s).run calls = some (s', answers) ∧
          ((InMemory.pmmBitmapAllocPage s').2 ≠ 0#32 →
            ¬ s.IsReserved kernel info (InMemory.pmmBitmapAllocPage s').2) ∧
          ∀ a, s.Exposes kernel info a →
            ∃ n s'' answers', (bitmapMemoryMachine s).runFrom s' (.freePage a :: .replicate n .allocPage) =
                some (s'', answers') ∧
              (InMemory.pmmBitmapAllocPage s'').2 = a := by
  have hkeeps := hlow.keepsOffLastPages
  obtain ⟨s, hinit, hview, hreach⟩ := pmmBitmapInit_view memory hlow (hlow.layoutsApart_clips hdisjoint hrange)
  obtain ⟨p, hp, hprotects⟩ := pmmBitmapInit_protects (fun _ => 0#8) hdisjoint hrange hkeeps
  obtain rfl := Option.some.inj (hview.symm.trans hp)
  refine ⟨s, hinit, fun calls hcalls => ?_⟩
  obtain ⟨s', answers, hrun, hrun', hreach'⟩ := hreach.run_view calls
  obtain ⟨p', answers', hrun'', h⟩ := hprotects.run fun a ha =>
    mt hreach.exposes_iff.mp (hcalls a ha)
  obtain ⟨rfl, rfl⟩ := Prod.mk.inj (Option.some.inj (hrun'.symm.trans hrun''))
  refine ⟨s', answers, hrun, fun hne => ?_, fun a ha => ?_⟩
  · rw [hreach'.alloc_steps.2] at hne ⊢
    exact mt hreach.isReserved_iff.mpr (h.alloc.2 hne)
  · obtain ⟨n, p'', answers', hreturned, hanswer⟩ := h.returned (hreach.exposes_iff.mpr ha)
    obtain ⟨s'', answers'', hrun₂, hrun₂', hreach''⟩ :=
      hreach'.run_view (.freePage a :: .replicate n .allocPage)
    obtain ⟨rfl, rfl⟩ := Prod.mk.inj (Option.some.inj (hrun₂'.symm.trans hreturned))
    exact ⟨n, s'', answers'', hrun₂, by rw [hreach''.alloc_steps.2, hanswer]⟩

/-- The case of two regions with a gap between them, over every sequence of calls. -/
theorem pmmBitmap_protects_gap :
    ∃ s, InMemory.pmmBitmapInit (fun _ => 0#8) gapMap lowKernel lowInfo = some s ∧
      ∀ calls, (∀ a, .freePage a ∈ calls → ¬ s.Exposes lowKernel lowInfo a) →
        ∃ s' answers, (bitmapMemoryMachine s).run calls = some (s', answers) ∧
          ((InMemory.pmmBitmapAllocPage s').2 ≠ 0#32 →
            ¬ s.IsReserved lowKernel lowInfo (InMemory.pmmBitmapAllocPage s').2) ∧
          ∀ a, s.Exposes lowKernel lowInfo a →
            ∃ n s'' answers', (bitmapMemoryMachine s).runFrom s' (.freePage a :: .replicate n .allocPage) =
                some (s'', answers') ∧
              (InMemory.pmmBitmapAllocPage s'').2 = a := by
  refine pmmBitmap_protects (fun _ => 0#8) gapMap_disjoint ?_ (by decide)
  intro e he _
  rcases List.mem_cons.mp he with rfl | he
  · decide
  · rw [List.mem_singleton.mp he]
    decide

/-- Eight pages behind the kernel image. -/
def tightMap : List Mb2MmapEntry := [⟨0x102000#64, 0x8000#64, 1#32⟩]

/-- A free of the page with the bitmap is accepted, and the next allocation returns that page. -/
theorem pmmBitmap_protects_refuted :
    ∃ s s' answers, InMemory.pmmBitmapInit (fun _ => 0#8) tightMap smallKernel wideInfo = some s ∧
      (bitmapMemoryMachine s).run [.freePage 0x102000#32] = some (s', answers) ∧
      (InMemory.pmmBitmapAllocPage s').2 = 0x102000#32 ∧
      s.IsReserved smallKernel wideInfo 0x102000#32 := by
  refine ⟨_, _, _, rfl, rfl, by decide +kernel, 0x102000, by decide,
    .inr (.inr ⟨_, List.mem_cons_self, 0, by decide +kernel, 0x102000#32, by decide +kernel, rfl⟩)⟩

end Microkernel.Pmm
