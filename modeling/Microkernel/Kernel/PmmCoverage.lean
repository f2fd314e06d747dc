import Microkernel.Kernel.PmmBackends
import Microkernel.Lib.IntervalCover
import Microkernel.Vmm.FrameSupply

/-! # The direct map and the physical allocator

`vmm_init` takes the end of the memory to map from two numbers, `pmm_managed_base()` and
`pmm_total_pages()`, and caps it at 1 GiB. So the direct map covers all managed pages when they have no
gap between them and end at 1 GiB or below; with gaps, the number of pages is too small an end.

* **`WithinReach`** — this condition on the ranges; they may also have gaps when they all end at 16 MiB or
  below, since that much is always mapped.
* **`DirectMapCovers`** — every page that any calls of the allocator return is in the direct map, with its
  bitmap or its descriptors.
* **`directMap_covers`** — under the condition, for either backend.
* **`directMap_gap`** — a map of two regions with a gap, where the direct map ends in front of the second.
-/

namespace Microkernel.Kernel

open Pmm Vmm IntervalCover

/-! ### Initialisation of the physical allocator -/

/-- The registered backend, with what is in memory before `pmm_init`. -/
inductive PmmBackend where
  | bitmap (memory : U32 → U8)
  | buddy (static : BuddyState)

namespace PmmBackend

variable (backend : PmmBackend) (entries : List Mb2MmapEntry) (kernel info : BootBlock)

/-- `pmm_init()`, where the entries of the memory map have been found. -/
def pmmInit : Option PmmState :=
  match backend with
  | bitmap memory => (pmmBitmapInit memory entries kernel info).map .bitmap
  | buddy static => (pmmBuddyInit entries kernel info static).map fun s => .buddy ⟨s, []⟩

/-- The ranges of managed pages. -/
def ranges : List (ℕ × ℕ) :=
  match backend with
  | bitmap _ => (bitmapLayouts entries kernel info).map fun l =>
      (l.managedStart.toNat, l.managedStart.toNat + l.pages.toNat * 4096)
  | buddy _ => (pmmBuddyLayout entries kernel info).toList.map fun l =>
      (l.managedStart.toNat, l.managedStart.toNat + l.managedPages.toNat * 4096)

/-- The ranges of pages with data of the allocator itself: the bitmaps, or the page descriptors. -/
def metadata : List (ℕ × ℕ) :=
  match backend with
  | bitmap _ => (bitmapLayouts entries kernel info).map fun l =>
      (l.managedStart.toNat, l.managedStart.toNat + l.bitmapStorageBytes.toNat)
  | buddy _ => (pmmBuddyLayout entries kernel info).toList.map fun l =>
      (l.regionStart.toNat, l.managedStart.toNat)

end PmmBackend

/-- A range ends behind its start. -/
theorem PmmBackend.ranges_le (backend : PmmBackend) {entries : List Mb2MmapEntry}
    {kernel info : BootBlock} {r : ℕ × ℕ} (hr : r ∈ backend.ranges entries kernel info) :
    r.1 ≤ r.2 := by
  cases backend with
  | bitmap memory =>
    obtain ⟨l, -, rfl⟩ := List.mem_map.mp hr
    exact Nat.le_add_right _ _
  | buddy static =>
    obtain ⟨l, -, rfl⟩ := List.mem_map.mp hr
    exact Nat.le_add_right _ _

/-- **The managed ranges are within reach of the direct map**: they are disjoint, they end at 1 GiB or
below, and there is no gap between them unless they all end at 16 MiB or the end of the kernel image, or
below. -/
structure WithinReach (ranges : List (ℕ × ℕ)) (kernelEnd : ℕ) : Prop where
  apart : ranges.Pairwise fun r r' => r.2 ≤ r'.1 ∨ r'.2 ≤ r.1
  below : ∀ r ∈ ranges, r.2 ≤ 2 ^ 30
  noGap : (∀ r ∈ ranges, r.2 ≤ max kernelEnd 0x1000000) ∨
    ∀ r ∈ ranges, ∀ r' ∈ ranges, ∀ x, r.1 ≤ x → x < r'.2 → ∃ q ∈ ranges, q.1 ≤ x ∧ x < q.2

/-- **The page is in the direct map**: it ends at the end of the map or below, its address there does not
wrap around, and it is mapped. -/
structure DirectlyMaps {σ : Type*} (s : VmmState σ) (mapEnd f : U32) : Prop where
  below : f.toNat + 4096 ≤ mapEnd.toNat
  noWrap : (physToVirt f).toNat = f.toNat + kernelVirtOffset.toNat
  mapped : vmmGetPhysical (physToVirt f) s = some f

/-! ### The end of the map -/

/-- What the direct map covers after `vmm_init`. -/
theorem vmmInit_directlyMaps {σ : Type*} {P : LawfulPmm σ} {kernelEnd : U32} {table : U32 → U32 → U32}
    {p : σ} {s : VmmState σ} (hinit : vmmInit P.toPmmOps kernelEnd (vmmStatic table p) = some s)
    (hready : s.ready) {f : U32} (hf : f.PageAligned)
    (hlt : f.toNat + 4096 ≤ (vmmMapEnd P.toPmmOps kernelEnd p).toNat) :
    DirectlyMaps s (vmmMapEnd P.toPmmOps kernelEnd p) f := by
  obtain ⟨s', hinit', -, hmap⟩ := vmmInit_spec P.lawful kernelEnd table p
  obtain rfl := Option.some.inj (hinit.symm.trans hinit')
  have hend := (vmmMapEnd_spec P.toPmmOps kernelEnd p).2
  have hoff : kernelVirtOffset.toNat = 0xC0000000 := rfl
  have hvirt : (physToVirt f).toNat = f.toNat + kernelVirtOffset.toNat := by
    rw [physToVirt, BitVec.toNat_add, hoff]
    exact Nat.mod_eq_of_lt (by omega)
  have haligned : (physToVirt f).PageAligned := by
    rw [U32.pageAligned_iff] at hf ⊢
    rw [hvirt, hoff]
    omega
  refine ⟨hlt, hvirt, ?_⟩
  rw [vmmGetPhysical_eq, if_pos ⟨hready, haligned⟩, hmap hready _ haligned, FlatMap.boot]
  have hlow : ¬ physToVirt f < vmmMapEnd P.toPmmOps kernelEnd p := by
    rw [BitVec.lt_def]
    omega
  have hsub : physToVirt f - kernelVirtOffset = f := by
    rw [physToVirt, BitVec.add_sub_cancel]
  rw [if_neg hlow, hsub, if_pos]
  rw [BitVec.le_def, BitVec.lt_def]
  omega

/-- Ranges within reach end at the end of the map or below, when the allocator reports where they start
and how long they are together. -/
theorem WithinReach.le_mapEnd {ranges : List (ℕ × ℕ)} {kernelEnd : U32}
    (h : WithinReach ranges kernelEnd.toNat) {σ : Type*} {ops : PmmOps σ} {p : σ}
    (hlen : ∀ r ∈ ranges, r.1 ≤ r.2)
    (hbase : ∀ r ∈ ranges, (ops.managedBase p).toNat ≤ r.1)
    (hmem : ranges ≠ [] → ∃ r ∈ ranges, r.1 = (ops.managedBase p).toNat)
    (hsize : (ops.totalPages p).toNat * 4096 = size ranges) {r : ℕ × ℕ} (hr : r ∈ ranges) :
    r.2 ≤ (vmmMapEnd ops kernelEnd p).toNat := by
  have hbelow := h.below r hr
  rw [vmmMapEnd_toNat]
  rcases h.noGap with hall | hgap
  · have := hall r hr
    omega
  · -- the ranges cover everything from the base to the end of this one
    obtain ⟨r₀, hr₀, hr₀b⟩ := hmem (List.ne_nil_of_mem hr)
    have hcover := le_size fun y hy hy' => hgap r₀ hr₀ r hr y hy hy'
    have hle : size ranges ≤ 2 ^ 30 - (ops.managedBase p).toNat :=
      size_le h.apart fun q hq => ⟨hbase q hq, h.below q hq⟩
    have hr₀' := h.below r₀ hr₀
    have hr₀'' := hlen r₀ hr₀
    have hend : (ops.managedBase p + ops.totalPages p * vmmPageSize).toNat =
        (ops.managedBase p).toNat + size ranges := by
      have hmul : (ops.totalPages p * vmmPageSize).toNat = size ranges := by
        rw [BitVec.toNat_mul, show vmmPageSize.toNat = 4096 from rfl, hsize]
        exact Nat.mod_eq_of_lt (by omega)
      rw [BitVec.toNat_add, hmul]
      exact Nat.mod_eq_of_lt (by omega)
    rw [hend]
    omega

/-! ### The numbers that the backends report -/

/-- The smallest base. -/
theorem foldl_min_base (rs : List BitmapRegion) (m : U32) (hrs : ∀ r ∈ rs, r.base ≠ 0#32) :
    let x := rs.foldl (fun m r => if r.base ≠ 0#32 ∧ r.base < m then r.base else m) m
    (x = m ∨ ∃ r ∈ rs, r.base = x) ∧ x.toNat ≤ m.toNat ∧ ∀ r ∈ rs, x.toNat ≤ r.base.toNat := by
  induction rs generalizing m with
  | nil => exact ⟨.inl rfl, le_rfl, fun _ hr => absurd hr List.not_mem_nil⟩
  | cons r rs ih =>
    have hr := hrs r List.mem_cons_self
    obtain ⟨m', hm', hcase, hle, hle'⟩ : ∃ m', (if r.base ≠ 0#32 ∧ r.base < m then r.base else m) = m' ∧
        (m' = m ∨ m' = r.base) ∧ m'.toNat ≤ m.toNat ∧ m'.toNat ≤ r.base.toNat := by
      refine ⟨_, rfl, ?_⟩
      by_cases hlt : r.base < m
      · rw [if_pos ⟨hr, hlt⟩]
        exact ⟨.inr rfl, hlt.le, le_rfl⟩
      · rw [if_neg fun h => hlt h.2]
        exact ⟨.inl rfl, le_rfl, BitVec.not_lt.mp hlt⟩
    obtain ⟨h₁, h₂, h₃⟩ := ih m' fun r' hr' => hrs r' (List.mem_cons_of_mem r hr')
    dsimp only
    rw [List.foldl_cons, hm']
    refine ⟨?_, h₂.trans hle, fun r' hr' => ?_⟩
    · rcases h₁ with h₁ | ⟨r', hr', h₁⟩
      · rcases hcase with hcase | hcase
        · exact .inl (h₁.trans hcase)
        · exact .inr ⟨r, List.mem_cons_self, (h₁.trans hcase).symm⟩
      · exact .inr ⟨r', List.mem_cons_of_mem r hr', h₁⟩
    · rcases List.mem_cons.mp hr' with rfl | hr'
      exacts [h₂.trans hle', h₃ r' hr']

/-- **What a backend reports** of the ranges: where the first one starts, and how many pages they have. -/
structure Reports (q : PmmState) (ranges : List (ℕ × ℕ)) : Prop where
  base_le : ∀ r ∈ ranges, (pmmManagedBase q).toNat ≤ r.1
  base_mem : ranges ≠ [] → ∃ r ∈ ranges, r.1 = (pmmManagedBase q).toNat
  size : (pmmTotalPages q).toNat * 4096 = size ranges
  /-- The pages of the zone are those of the ranges. -/
  pages : ∀ Z, q.InZone Z → ∀ f, Z.HasPage f →
    f.PageAligned ∧ ∃ r ∈ ranges, r.1 ≤ f.toNat ∧ f.toNat + 4096 ≤ r.2

/-- The ranges of the regions. -/
def regionRanges (p : BitmapPmm) : List (ℕ × ℕ) :=
  p.regions.map fun r => (r.base.toNat, r.base.toNat + r.pages.toNat * 4096)

/-- The bitmap allocator reports its regions. -/
theorem bitmap_reports {p : BitmapPmm} (h : p.Sound) (hapart : p.Apart) :
    Reports (.bitmap p) (regionRanges p) := by
  have hbase : ∀ r ∈ p.regions, r.base ≠ 0#32 := by
    intro r hr hzero
    have hlow := hapart.low r hr
    rw [hzero] at hlow
    exact absurd hlow (by decide)
  have hready := h.ready
  refine ⟨?_, ?_, ?_, ?_⟩
  -- the reported base is below every region
  · rw [regionRanges, List.forall_mem_map]
    intro r hr
    show (pmmBitmapManagedBase p).toNat ≤ r.base.toNat
    rw [pmmBitmapManagedBase, hready.mpr (List.ne_nil_of_mem hr)]
    cases hregions : p.regions with
    | nil => simp [hregions] at hr
    | cons r₀ rs =>
      rw [hregions] at hr hbase
      obtain ⟨-, h₂, h₃⟩ := foldl_min_base rs r₀.base fun r' hr' => hbase r' (List.mem_cons_of_mem r₀ hr')
      rcases List.mem_cons.mp hr with rfl | hr
      exacts [h₂, h₃ r hr]
  · intro hne
    have hne' : p.regions ≠ [] := fun hnil => hne (by rw [regionRanges, hnil]; rfl)
    rw [regionRanges]
    -- the base is that of a region, as the fold only chooses
    suffices ∃ r ∈ p.regions, r.base = pmmBitmapManagedBase p by
      obtain ⟨r, hr, hrb⟩ := this
      exact ⟨_, List.mem_map_of_mem hr, congrArg BitVec.toNat hrb⟩
    rw [pmmBitmapManagedBase, hready.mpr hne']
    cases hregions : p.regions with
    | nil => exact absurd hregions hne'
    | cons r₀ rs =>
      rw [hregions] at hbase
      obtain ⟨h₁, -⟩ := foldl_min_base rs r₀.base fun r' hr' => hbase r' (List.mem_cons_of_mem r₀ hr')
      rcases h₁ with h₁ | ⟨r, hr, h₁⟩
      · exact ⟨r₀, List.mem_cons_self, h₁.symm⟩
      · exact ⟨r, List.mem_cons_of_mem r₀ hr, h₁⟩
  -- the total is the number of pages of all regions
  · have hsize : size (regionRanges p) = (p.regions.map (·.pages.toNat)).sum * 4096 := by
      rw [regionRanges]
      induction p.regions with
      | nil => rfl
      | cons r rs ih =>
        rw [List.map_cons, List.map_cons, List.sum_cons, size, ih, Nat.add_mul]
        exact congrArg (· + _) (Nat.add_sub_cancel_left ..)
    rw [hsize, ← h.totalPages]
    show (pmmBitmapTotalPages p).toNat * 4096 = _
    rw [pmmBitmapTotalPages]
    by_cases hnil : p.ready = true
    · rw [if_pos hnil]
    · have hempty : p.regions = [] := by
        by_contra hne
        exact hnil (hready.mpr hne)
      rw [if_neg hnil, h.totalPages, hempty]
      rfl
  · rintro Z hZ f hf
    cases Z with
    -- the page of a frame lies in the range of its region
    | buddy A => exact absurd hZ id
    | bitmap p₀ =>
      obtain ⟨-, -, hsame⟩ := hZ
      obtain ⟨ri, i, hpage⟩ := hf
      obtain ⟨r, hr, hi, haddr⟩ := hsame.hasPage hpage
      have hmem := List.mem_of_getElem? hr
      have hnum := (hapart.fits r hmem).indexToAddr hi
      refine ⟨?_, _, List.mem_map_of_mem hmem, ?_, ?_⟩
      · rw [← haddr]
        exact (h.regions r hmem).toShape.indexToAddr_aligned hi
      · rw [← haddr, hnum]
        exact Nat.le_add_right _ _
      · rw [← haddr, hnum]
        dsimp only
        omega

/-- The buddy allocator reports its zone. -/
theorem buddy_reports {c : BuddyPages} {A : BuddyArea} (h : c.Serves A) :
    Reports (.buddy c)
      [(A.managedStart.toNat, A.managedStart.toNat + A.managedPages.toNat * 4096)] := by
  have hbase : (pmmManagedBase (.buddy c)).toNat = A.managedStart.toNat := by
    rw [pmmManagedBase, pmmBuddyManagedBase, if_pos h.serves.ready, h.serves.basePhys]
  refine ⟨?_, fun _ => ⟨_, List.mem_singleton_self _, hbase.symm⟩, ?_, ?_⟩
  · intro r hr
    rw [List.mem_singleton.mp hr, hbase]
  · rw [pmmTotalPages, pmmBuddyTotalPages, if_pos h.serves.ready, h.serves.totalPages, size, size,
      Nat.add_sub_cancel_left, Nat.add_zero]
  · rintro Z hZ f hf
    obtain p₀ | _ | A' := Z
    · exact absurd hZ id
    · exact absurd hf id
    · obtain ⟨i, hi, haddr⟩ := hf
      have hstart : A'.managedStart = A.managedStart := hZ.serves.basePhys.symm.trans h.serves.basePhys
      have hpages : A'.managedPages = A.managedPages := hZ.serves.totalPages.symm.trans h.serves.totalPages
      have hdvd := (U32.pageAligned_iff _).mp A.start_aligned
      rw [hstart] at haddr
      rw [hpages] at hi
      refine ⟨?_, _, List.mem_singleton_self _, ?_, ?_⟩
      · rw [U32.pageAligned_iff, haddr]
        exact Nat.dvd_add hdvd (Nat.dvd_mul_left ..)
      · rw [haddr]
        exact Nat.le_add_right _ _
      · rw [haddr]
        dsimp only
        omega

/-! ### The initialised backends -/

/-- What `pmm_init` leaves: the invariant of a zone, and a backend that reports its ranges. The data of
the allocator end with a whole page inside a range. -/
structure Covers (q : PmmState) (ranges metadata : List (ℕ × ℕ)) : Prop where
  inZone : ∃ Z, q.InZone Z
  reports : Reports q ranges
  metadata : ∀ m ∈ metadata, 4096 ∣ m.2 ∧ ∃ r ∈ ranges, m.2 ≤ r.2

/-- The regions lie where their layouts do. -/
theorem regionRanges_placed {layouts : List RegionLayout} {p : BitmapPmm}
    (h : List.Forall₂ (fun l r => BitmapRegion.Placed r l) layouts p.regions) :
    regionRanges p = layouts.map fun l =>
      (l.managedStart.toNat, l.managedStart.toNat + l.pages.toNat * 4096) := by
  rw [regionRanges]
  generalize p.regions = rs at h
  induction h with
  | nil => rfl
  | cons hr _ ih => rw [List.map_cons, List.map_cons, ih, hr.base, hr.pages]

/-- The bitmap allocator after `pmm_init`. -/
theorem bitmap_covers (memory : U32 → U8) {entries : List Mb2MmapEntry} {kernel info : BootBlock}
    (h : WithinReach ((PmmBackend.bitmap memory).ranges entries kernel info) kernel.stop.toNat) :
    ∃ q, (PmmBackend.bitmap memory).pmmInit entries kernel info = some q ∧
      Covers q ((PmmBackend.bitmap memory).ranges entries kernel info)
        ((PmmBackend.bitmap memory).metadata entries kernel info) := by
  obtain ⟨p, hinit, hsound, hplaced, -⟩ := pmmBitmapInit_regions memory entries kernel info
  have hbelow : ∀ l ∈ bitmapLayouts entries kernel info,
      l.managedStart.toNat + l.pages.toNat * 4096 ≤ 2 ^ 30 := fun l hl =>
    h.below _ (List.mem_map_of_mem hl)
  have hspec : ∀ l ∈ bitmapLayouts entries kernel info, ∃ e usable, Clips e usable ∧
      l.Spec usable kernel info := by
    intro l hl
    obtain ⟨-, e, -, -, hlayout, -⟩ := mem_take_filterMap.mp hl
    obtain ⟨usable, hclips, hspec⟩ := entryLayout_low hlayout (hbelow l hl)
    exact ⟨e, usable, hclips, hspec⟩
  have hapart : p.Apart := by
    refine apart_of_layouts (fun l hl => ?_) (List.pairwise_map.mp h.apart) hplaced
    obtain ⟨e, usable, hclips, hspec⟩ := hspec l hl
    exact ⟨lt_of_le_of_lt (hbelow l hl) (by decide), hclips.mib_le.trans hspec.start_ge⟩
  have hranges : regionRanges p = (PmmBackend.bitmap memory).ranges entries kernel info :=
    regionRanges_placed hplaced
  refine ⟨.bitmap p, ?_, ⟨.bitmap p, hsound, hapart, .refl p⟩, ?_, ?_⟩
  · rw [PmmBackend.pmmInit, hinit, Option.map_some]
  · rw [← hranges]
    exact bitmap_reports hsound hapart
  · intro m hm
    obtain ⟨l, hl, rfl⟩ := List.mem_map.mp hm
    obtain ⟨e, usable, -, hspec⟩ := hspec l hl
    have hdvd := hspec.start_dvd
    have hstorage := hspec.storage
    have hlt := hspec.bitmapPages_lt
    refine ⟨?_, _, List.mem_map_of_mem hl, ?_⟩
    · dsimp only
      omega
    · dsimp only
      omega

/-- The buddy allocator after `pmm_init`. -/
theorem buddy_covers (static : BuddyState) (entries : List Mb2MmapEntry) (kernel info : BootBlock) :
    ∃ q, (PmmBackend.buddy static).pmmInit entries kernel info = some q ∧
      Covers q ((PmmBackend.buddy static).ranges entries kernel info)
        ((PmmBackend.buddy static).metadata entries kernel info) := by
  cases hl : pmmBuddyLayout entries kernel info with
  | none =>
    have hinit : pmmBuddyInit entries kernel info static = some (buddyReset static) := by
      rw [pmmBuddyInit, hl]
    refine ⟨.buddy ⟨buddyReset static, []⟩, ?_, ⟨.buddy none, rfl, rfl⟩, ?_, ?_⟩
    · rw [PmmBackend.pmmInit, hinit, Option.map_some]
    · rw [PmmBackend.ranges, hl]
      refine ⟨fun r hr => absurd hr List.not_mem_nil, fun hne => absurd rfl hne, Nat.zero_mul 4096, ?_⟩
      rintro (p₀ | _ | A) hZ f hf
      · exact absurd hZ id
      · exact absurd hf id
      · exact absurd hZ.serves.ready Bool.false_ne_true
    · rw [PmmBackend.metadata, hl]
      exact fun m hm => absurd hm List.not_mem_nil
  | some l =>
    have hspec := buddyLayout_spec hl
    obtain ⟨A, -, hstart, hpages, hinit⟩ := pmmBuddyInit_eq hl static
    obtain ⟨s, hs, hserves⟩ := buddyInitArea_serves A static
    refine ⟨.buddy ⟨s, []⟩, ?_, ⟨.buddy (some A), hserves⟩, ?_, ?_⟩
    · rw [PmmBackend.pmmInit, hinit, hs, Option.map_some]
    · rw [PmmBackend.ranges, hl, Option.toList_some, List.map_singleton, ← hstart, ← hpages]
      exact buddy_reports hserves
    · rw [PmmBackend.metadata, PmmBackend.ranges, hl]
      intro m hm
      obtain rfl := List.mem_singleton.mp hm
      refine ⟨?_, _, List.mem_singleton_self _, Nat.le_add_right _ _⟩
      have hdvd := hspec.start_dvd
      have hnum := hspec.managedStart
      dsimp only
      omega

/-- Either backend reports ranges within reach. -/
theorem PmmBackend.covers (backend : PmmBackend) {entries : List Mb2MmapEntry}
    {kernel info : BootBlock}
    (h : WithinReach (backend.ranges entries kernel info) kernel.stop.toNat) :
    ∃ q, backend.pmmInit entries kernel info = some q ∧
      Covers q (backend.ranges entries kernel info) (backend.metadata entries kernel info) := by
  cases backend with
  | bitmap memory => exact bitmap_covers memory h
  | buddy static => exact buddy_covers static entries kernel info

/-! ### The theorem -/

/-- **The direct map covers the physical allocator**: after `pmm_init` and a successful `vmm_init`, it has
every page that any calls of `pmm_alloc_page` and `pmm_free_page` return, before or after `vmm_init`, and
every page with data of the allocator. -/
def DirectMapCovers (backend : PmmBackend) (entries : List Mb2MmapEntry) (kernel info : BootBlock) :
    Prop :=
  ∀ Z (p₀ : PmmIn Z) table s, backend.pmmInit entries kernel info = some p₀.val →
    vmmInit (pmmBackend Z).toPmmOps kernel.stop (vmmStatic table p₀) = some s → s.ready →
    (∀ p, p = p₀ ∨ p = s.pmm → ∀ calls, ∃ q answers, (pmmMachine p).run calls = some (q, answers) ∧
      ∀ f ∈ answers, f ≠ 0#32 →
        DirectlyMaps s (vmmMapEnd (pmmBackend Z).toPmmOps kernel.stop p₀) f) ∧
    ∀ m ∈ backend.metadata entries kernel info, ∀ f : U32, f.PageAligned →
      m.1 ≤ f.toNat → f.toNat < m.2 →
        DirectlyMaps s (vmmMapEnd (pmmBackend Z).toPmmOps kernel.stop p₀) f

/-- **With the managed ranges within its reach the direct map covers the physical allocator.** -/
theorem directMap_covers (backend : PmmBackend) {entries : List Mb2MmapEntry}
    {kernel info : BootBlock}
    (h : WithinReach (backend.ranges entries kernel info) kernel.stop.toNat) :
    (∃ Z, ∃ p₀ : PmmIn Z, backend.pmmInit entries kernel info = some p₀.val) ∧
      DirectMapCovers backend entries kernel info := by
  obtain ⟨q, hinit, hcovers⟩ := backend.covers h
  obtain ⟨Z, hZ⟩ := hcovers.inZone
  refine ⟨⟨Z, ⟨q, hZ⟩, hinit⟩, ?_⟩
  intro Z p₀ table s hinit' hvmm hready
  obtain rfl := Option.some.inj (hinit.symm.trans hinit')
  have hreports := hcovers.reports
  have hsize : ((pmmBackend Z).totalPages p₀).toNat * 4096 =
      size (backend.ranges entries kernel info) := by
    rw [show (pmmBackend Z).totalPages p₀ = pmmTotalPages p₀.val from rfl, hreports.size]
  have hend : ∀ r ∈ backend.ranges entries kernel info,
      r.2 ≤ (vmmMapEnd (pmmBackend Z).toPmmOps kernel.stop p₀).toNat := fun r hr =>
    h.le_mapEnd (fun _ hr => backend.ranges_le hr) hreports.base_le hreports.base_mem hsize hr
  refine ⟨fun p _ calls => ?_, fun m hm f hf hle hlt => ?_⟩
  · obtain ⟨q, answers, hrun, hpages⟩ := pmm_run_hasPage calls p
    refine ⟨q, answers, hrun, fun f hf hne => ?_⟩
    obtain ⟨haligned, r, hr, -, hle⟩ := hreports.pages Z p₀.property f (hpages f hf hne)
    exact vmmInit_directlyMaps hvmm hready haligned (hle.trans (hend r hr))
  · -- the last page with such data ends with them
    obtain ⟨hdvd, r, hr, hmr⟩ := hcovers.metadata m hm
    have haligned := (U32.pageAligned_iff _).mp hf
    have hmapEnd := hend r hr
    exact vmmInit_directlyMaps hvmm hready hf (by omega)

/-- Memory from 1 MiB to 24 MiB, and from there to 32 MiB. -/
def adjoiningMap : List Mb2MmapEntry :=
  [⟨0x100000#64, 0x1700000#64, 1#32⟩, ⟨0x1800000#64, 0x800000#64, 1#32⟩]

/-- Two ranges that adjoin behind the first 16 MiB are within reach: the end of the map is the base of the
first one and the pages of both. -/
theorem directMap_covers_adjoining :
    (∃ Z, ∃ p₀ : PmmIn Z, (PmmBackend.bitmap fun _ => 0#8).pmmInit adjoiningMap lowKernel lowInfo =
        some p₀.val) ∧
      DirectMapCovers (.bitmap fun _ => 0#8) adjoiningMap lowKernel lowInfo := by
  refine directMap_covers _ ?_
  have hranges : (PmmBackend.bitmap fun _ => 0#8).ranges adjoiningMap lowKernel lowInfo =
      [(0x201000, 0x1800000), (0x1800000, 0x2000000)] := rfl
  rw [hranges]
  refine ⟨by decide, by decide, .inr ?_⟩
  intro r hr r' hr' x hx hx'
  have hlow : 0x201000 ≤ x ∧ x < 0x2000000 := by
    simp only [List.mem_cons, List.not_mem_nil, or_false] at hr hr'
    rcases hr with rfl | rfl <;> rcases hr' with rfl | rfl <;> omega
  rcases Nat.lt_or_ge x 0x1800000 with hlt | hge
  · exact ⟨_, List.mem_cons_self, hlow.1, hlt⟩
  · exact ⟨_, List.mem_cons_of_mem _ (List.mem_singleton_self _), hge, hlow.2⟩

/-! ### Memory with a gap -/

/-- The bitmap allocator gives as many frames as it has free pages. -/
theorem bitmap_supplies {p₀ : BitmapPmm} (hlow : ∀ f, (PmmZone.bitmap p₀).HasPage f → f.toNat < 2 ^ 30)
    {k : ℕ} {p : BitmapPmm} (h : (PmmState.bitmap p).InZone (.bitmap p₀))
    (hk : k ≤ p.totalFree.toNat) : (pmmBackend (.bitmap p₀)).Supplies k ⟨.bitmap p, h⟩ := by
  induction k generalizing p with
  | zero => trivial
  | succ k ih =>
    obtain ⟨hsound, hapart, hsame⟩ := h
    rcases hsound.alloc with ⟨-, hnone⟩ | ⟨ri, i, hmarks⟩
    · -- a page is free
      have hne : p.totalFree ≠ 0#32 := by
        intro hzero
        rw [hzero] at hk
        exact absurd hk (Nat.not_succ_le_zero k)
      obtain ⟨ri, i, hfree⟩ := hsound.exists_isFree_iff.mpr hne
      exact absurd hfree (hnone ri i)
    · have hfree : k ≤ (pmmBitmapAllocPage p).1.totalFree.toNat := by
        rw [hmarks.totalFree, if_pos rfl]
        bv_omega
      have hlt := hlow _ ⟨ri, i, hsame.symm.hasPage hmarks.hasPage⟩
      refine ⟨hapart.ne_zero hmarks.hasPage, fun hvirt => ?_, ih _ hfree⟩
      · have hsum : ((pmmBitmapAllocPage p).2 + kernelVirtOffset).toNat = 0 := congrArg BitVec.toNat hvirt
        rw [BitVec.toNat_add, show kernelVirtOffset.toNat = 0xC0000000 from rfl] at hsum
        omega

/-- Memory from 1 MiB to 16 MiB and from 64 MiB to 96 MiB. -/
def gapMap : List Mb2MmapEntry :=
  [⟨0x100000#64, 0xF00000#64, 1#32⟩, ⟨0x4000000#64, 0x2000000#64, 1#32⟩]

/-- The layouts of the two regions. -/
theorem gapMap_layouts : bitmapLayouts gapMap lowKernel lowInfo =
    [⟨0x100000#32, 0x1000000#32, 0x201000#32, 0x1000000#32, 3583#32, 448#32, 4096#32, 1#32⟩,
      ⟨0x4000000#32, 0x6000000#32, 0x4000000#32, 0x6000000#32, 8192#32, 1024#32, 4096#32, 1#32⟩] := rfl

/-- The initialised allocator has plenty of free pages. -/
theorem gapMap_totalFree {p : BitmapPmm}
    (h : pmmBitmapInit (fun _ => 0#8) gapMap lowKernel lowInfo = some p) :
    2048 ≤ p.totalFree.toNat := by
  rcases pmmBitmapInit_cases (fun _ => 0#8) gapMap lowKernel lowInfo with
    ⟨hnil, -⟩ | ⟨p₀, p₁, hregions, hsound, hres, hinit⟩
  · rw [gapMap_layouts] at hnil
    cases hnil
  obtain rfl := Option.some.inj (hinit.symm.trans h)
  have hstart : ∀ l ∈ bitmapLayouts gapMap lowKernel lowInfo, 0x201000 ≤ l.managedStart.toNat := by
    rw [gapMap_layouts]
    decide
  have hregion : ∀ l ∈ bitmapLayouts gapMap lowKernel lowInfo,
      0x201000 ≤ (l.region fun _ => 0#8).base.toNat ∧
        (l.region fun _ => 0#8).free.toNat = l.pages.toNat - l.bitmapPages.toNat := by
    intro l hl
    obtain ⟨-, hbase, -, -, hfree, -⟩ := (bitmapLayouts_shape hl).region fun _ => 0#8
    rw [hbase]
    exact ⟨hstart l hl, hfree⟩
  -- neither block meets a region
  have hsame : p₁ = p₀ := by
    refine hres.unowned fun a ha hmeets ri i howns => ?_
    obtain ⟨pre, r, post, hp₀, -, -, -, hin⟩ := howns
    have hmem : r ∈ p₀.regions := by simp [hp₀]
    have hrange := ((hsound.regions r hmem).toShape.containsAddr_iff a).mp hin
    rw [hregions] at hmem
    obtain ⟨l, hl, rfl⟩ := List.mem_map.mp hmem
    have hbase := (hregion l hl).1
    rw [U32.pageAligned_iff] at ha
    rcases hmeets with ⟨-, hlt⟩ | ⟨-, hlt⟩
    · have hlt : a.toNat < 0x200000 := hlt
      omega
    · have hlt : a.toNat < 0x201000 := hlt
      omega
  subst hsame
  have hself := hsound.selftest.2.2.1
  have htotal := hsound.totalFree
  rw [hregions, List.map_map, gapMap_layouts] at htotal
  rw [gapMap_layouts] at hregion
  simp only [List.map_cons, List.map_nil, List.sum_cons, List.sum_nil, Function.comp_apply,
    (hregion _ (List.mem_cons_self ..)).2,
    (hregion _ (List.mem_cons_of_mem _ (List.mem_singleton_self _))).2] at htotal
  have hsum : p₁.totalFree.toNat = 11773 := htotal
  omega

/-- **With a gap in memory the direct map ends too early**: it ends at 48 MiB, the second region begins at
64 MiB with its bitmap. -/
theorem directMap_gap :
    ¬ ∀ backend entries kernel info, DirectMapCovers backend entries kernel info := by
  intro hall
  obtain ⟨p, hinit, hsound, hplaced, -⟩ :=
    pmmBitmapInit_regions (fun _ => 0#8) gapMap lowKernel lowInfo
  have hfree := gapMap_totalFree hinit
  have hranges : regionRanges p = [(0x201000, 0x1000000), (0x4000000, 0x6000000)] := by
    rw [regionRanges_placed hplaced, gapMap_layouts]
    rfl
  have hapart : p.Apart := by
    rw [gapMap_layouts] at hplaced
    exact apart_of_layouts (by decide) (by decide) hplaced
  have hzone : (PmmState.bitmap p).InZone (.bitmap p) := ⟨hsound, hapart, .refl p⟩
  have hreports := bitmap_reports hsound hapart
  have hlow : ∀ f, (PmmZone.bitmap p).HasPage f → f.toNat < 2 ^ 30 := by
    intro f hf
    obtain ⟨-, r, hr, -, hle⟩ := hreports.pages (.bitmap p) hzone f hf
    have hmax : ∀ r ∈ regionRanges p, r.2 ≤ 2 ^ 30 := by
      rw [hranges]
      decide
    have := hmax r hr
    omega
  obtain ⟨s, hvmm, hready, -⟩ := vmmInit_supplied (k := 0) (bitmap_supplies hlow hzone hfree)
    lowKernel.stop fun _ _ => 0#32
  obtain ⟨-, hmeta⟩ := hall (.bitmap fun _ => 0#8) gapMap lowKernel lowInfo (.bitmap p)
    ⟨.bitmap p, hzone⟩ (fun _ _ => 0#32) s (by rw [PmmBackend.pmmInit, hinit, Option.map_some]) hvmm
    hready
  -- the page of the second bitmap
  have hbelow := (hmeta (0x4000000, 0x4001000) (by decide) 0x4000000#32 (by decide) (by decide)
    (by decide)).below
  have hreport : (pmmManagedBase (.bitmap p)).toNat = 0x201000 ∧
      (pmmTotalPages (.bitmap p)).toNat = 11775 := by
    obtain ⟨hbase, hmem, hsize, -⟩ := hreports
    rw [hranges] at hbase hmem hsize
    obtain ⟨r, hr, hrb⟩ := hmem (by simp)
    have hfirst := hbase (0x201000, 0x1000000) (by simp)
    have hle : 0x201000 ≤ r.1 := by
      revert r
      simp
    have hsize' : size [(0x201000, 0x1000000), (0x4000000, 0x6000000)] = 11775 * 4096 := by decide
    dsimp only at hfirst
    omega
  have hend : (pmmManagedBase (.bitmap p) + pmmTotalPages (.bitmap p) * vmmPageSize).toNat = 0x3000000 := by
    obtain ⟨hbase, htotal⟩ := hreport
    rw [BitVec.toNat_add, BitVec.toNat_mul, hbase, htotal]
    rfl
  rw [vmmMapEnd_toNat] at hbelow
  replace hbelow : 0x4000000 + 4096 ≤ (min (max (max 0x200000 0x1000000)
      (pmmManagedBase (.bitmap p) + pmmTotalPages (.bitmap p) * vmmPageSize).toNat) 0x40000000 + 4095) /
        4096 * 4096 := hbelow
  rw [hend] at hbelow
  exact absurd hbelow (by decide)

end Microkernel.Kernel
