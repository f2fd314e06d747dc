import Microkernel.Pmm.Bitmap

/-! # The layout of the bitmap regions

How `pmm_bitmap_init` clips an entry of the memory map, and what `pmm_compute_region_layout` makes of the
result: a range of whole pages with its bitmap in front, clear of the kernel image and with the bitmap
clear of the Multiboot2 information. Only the page before the last of the address space is different:
there the end of the first page wraps around and the check for an empty range passes.

* **`Clips`, `RegionLayout.Spec`** — what clipping and the layout should come to, in natural numbers.
* **`layoutAttempts_spec`** — the attempts: a bitmap that meets the information is put behind it, and the
  sizes are computed again.
* **`Mb2MmapEntry.InLastPages`** — the entries for which this fails.
-/

namespace Microkernel.Pmm

/-! ### The clipped entry -/

/-- The saturating end of an entry that is not skipped is its end. -/
theorem u64AddSat_toNat {a b : U64} (h : u64AddSat a b ≠ 0xFFFFFFFFFFFFFFFF#64) :
    (u64AddSat a b).toNat = a.toNat + b.toNat := by
  unfold u64AddSat at h ⊢
  dsimp only at h ⊢
  by_cases hwrap : a + b < a
  · rw [if_pos hwrap] at h
    exact absurd rfl h
  · rw [if_neg hwrap] at h ⊢
    bv_omega

/-- What the clipped entry is. -/
structure Clips (e : Mb2MmapEntry) (usable : U32 × U32) : Prop where
  isUsable : e.Usable
  start_ge : e.addr.toNat ≤ usable.1.toNat
  start_eq : usable.1.toNat = e.addr.toNat ∨ usable.1.toNat = 2 ^ 20
  mib_le : 2 ^ 20 ≤ usable.1.toNat
  lt : usable.1.toNat < usable.2.toNat
  stop_le : usable.2.toNat ≤ e.addr.toNat + e.len.toNat
  stop_eq : usable.2.toNat = e.addr.toNat + e.len.toNat ∨ usable.2.toNat = 0xFFFFFFFF

/-- `clip_entry_to_usable_range_u32` meets its description. -/
theorem clipEntry_clips {e : Mb2MmapEntry} {usable : U32 × U32} (h : clipEntry e = some usable) :
    Clips e usable := by
  rw [clipEntry] at h
  dsimp only at h
  by_cases htype : e.type ≠ 1#32
  · rw [if_pos htype] at h
    cases h
  rw [if_neg htype] at h
  obtain ⟨stop64, hstop64⟩ : ∃ s, u64AddSat e.addr e.len = s := ⟨_, rfl⟩
  rw [hstop64] at h
  by_cases hskip : stop64 = 0xFFFFFFFFFFFFFFFF#64 ∨ stop64 ≤ e.addr
  · rw [if_pos hskip] at h
    cases h
  rw [if_neg hskip] at h
  rw [not_or] at hskip
  have hend : stop64.toNat = e.addr.toNat + e.len.toNat := by
    rw [← hstop64]
    exact u64AddSat_toNat (by rw [hstop64]; exact hskip.1)
  by_cases hhigh : e.addr ≥ 0x100000000#64
  · rw [if_pos hhigh] at h
    cases h
  rw [if_neg hhigh] at h
  -- the end, which is clipped to the address space
  obtain ⟨stop, hstop⟩ : ∃ s : U32, (if stop64 ≥ 0x100000000#64 then 0xFFFFFFFF#32
      else stop64.setWidth 32) = s := ⟨_, rfl⟩
  have hstop' : stop.toNat ≤ stop64.toNat ∧ (stop.toNat = stop64.toNat ∨ stop.toNat = 0xFFFFFFFF) := by
    by_cases hsat : stop64 ≥ 0x100000000#64
    · rw [if_pos hsat] at hstop
      subst hstop
      refine ⟨?_, .inr rfl⟩
      bv_omega
    · rw [if_neg hsat] at hstop
      have hnum : stop.toNat = stop64.toNat := by
        rw [← hstop]
        bv_omega
      exact ⟨hnum.le, .inl hnum⟩
  rw [hend] at hstop'
  rw [hstop] at h
  by_cases hlow : stop ≤ 0x100000#32
  · rw [if_pos hlow] at h
    cases h
  rw [if_neg hlow] at h
  have haddr : (e.addr.setWidth 32 : U32).toNat = e.addr.toNat := by bv_omega
  obtain ⟨start, hstart⟩ : ∃ s : U32, (if (e.addr.setWidth 32 : U32) < 0x100000#32 then 0x100000#32
      else e.addr.setWidth 32) = s := ⟨_, rfl⟩
  have hstart' : e.addr.toNat ≤ start.toNat ∧ 2 ^ 20 ≤ start.toNat ∧
      (start.toNat = e.addr.toNat ∨ start.toNat = 2 ^ 20) := by
    rw [← hstart]
    split <;> bv_omega
  rw [hstart] at h
  by_cases hempty : stop ≤ start
  · rw [if_pos hempty] at h
    cases h
  rw [if_neg hempty] at h
  obtain rfl := Option.some.inj h
  exact ⟨not_not.mp htype, hstart'.1, hstart'.2.2, hstart'.2.1, BitVec.not_le.mp hempty, hstop'.1,
    hstop'.2⟩

/-- Usable memory in the page before the last of the address space, behind its first address and short of
the last page. -/
structure Mb2MmapEntry.InLastPages (e : Mb2MmapEntry) : Prop where
  isUsable : e.Usable
  lt_addr : 0xFFFFE000 < e.addr.toNat
  len_pos : 0 < e.len.toNat
  stop_lt : e.addr.toNat + e.len.toNat < 0xFFFFF000

/-- An entry in the last two pages is clipped to itself: nothing of it is rounded away. -/
theorem Mb2MmapEntry.InLastPages.clipEntry {e : Mb2MmapEntry} (h : e.InLastPages) :
    ∃ usable, Pmm.clipEntry e = some usable ∧ usable.1.toNat = e.addr.toNat ∧
      usable.2.toNat = e.addr.toNat + e.len.toNat := by
  obtain ⟨husable, hlt, hpos, hstop⟩ := h
  have hsum : u64AddSat e.addr e.len = e.addr + e.len := by
    rw [u64AddSat]
    exact if_neg (by bv_omega)
  refine ⟨(e.addr.setWidth 32, (e.addr + e.len).setWidth 32), ?_, by bv_omega, by bv_omega⟩
  have htype : ¬ e.type ≠ 1#32 := not_not.mpr husable
  rw [Pmm.clipEntry, hsum]
  dsimp only
  rw [if_neg htype, if_neg (by bv_omega), if_neg (by bv_omega),
    if_neg (by bv_omega : ¬ e.addr + e.len ≥ 0x100000000#64), if_neg (by bv_omega),
    if_neg (by bv_omega : ¬ (e.addr.setWidth 32 : U32) < 0x100000#32), if_neg (by bv_omega)]

/-! ### The layout in numbers -/

/-- `u32_max` is the larger number. -/
theorem u32Max_toNat (a b : U32) : (u32Max a b).toNat = max a.toNat b.toNat := by
  rw [u32Max]
  split <;> bv_omega

/-- `u32_min` is the smaller number. -/
theorem u32Min_toNat (a b : U32) : (u32Min a b).toNat = min a.toNat b.toNat := by
  rw [u32Min]
  split <;> bv_omega

/-- `ranges_overlap` compares the larger start with the smaller end. -/
theorem rangesOverlap_iff (a b c d : U32) :
    rangesOverlap a b c d = true ↔ max a.toNat c.toNat < min b.toNat d.toNat := by
  rw [rangesOverlap, decide_eq_true_iff, gt_iff_lt, BitVec.lt_def, u32Max_toNat, u32Min_toNat]

/-- The start after the kernel image has been skipped. -/
theorem kernelPush_spec (kernel : BootBlock) (start stop : U32) :
    ∃ pushed : U32, (if rangesOverlap start stop kernel.start kernel.stop then
        if start < kernel.stop ∧ stop > kernel.start then u32Max start (alignUp kernel.stop pageSize)
        else start
      else start) = pushed ∧
      start.toNat ≤ pushed.toNat ∧ (pushed.toNat = start.toNat ∨ pushed.toNat ≤ 2 ^ 30) ∧
      (start.toNat < stop.toNat →
        stop.toNat ≤ kernel.start.toNat ∨ kernel.stop.toNat ≤ pushed.toNat) := by
  have hlt : kernel.start.toNat < kernel.stop.toNat := kernel.start_lt_stop
  have hle := kernel.stop_le
  have hup := kernel.alignUp_stop
  have hover := rangesOverlap_iff start stop kernel.start kernel.stop
  refine ⟨_, rfl, ?_⟩
  by_cases h : rangesOverlap start stop kernel.start kernel.stop = true
  · have hmax := hover.mp h
    have hboth : start < kernel.stop ∧ stop > kernel.start := by bv_omega
    rw [if_pos h, if_pos hboth, u32Max_toNat, hup]
    omega
  · have hmax := mt hover.mpr h
    rw [if_neg h]
    omega

/-- What the layout of a range guarantees. -/
structure RegionLayout.Spec (l : RegionLayout) (usable : U32 × U32) (kernel info : BootBlock) :
    Prop where
  start_dvd : 4096 ∣ l.managedStart.toNat
  start_ge : usable.1.toNat ≤ l.managedStart.toNat
  stop : l.managedStart.toNat + l.pages.toNat * 4096 = l.managedStop.toNat
  stop_le : l.managedStop.toNat ≤ usable.2.toNat
  pages_ge : 8 ≤ l.pages.toNat
  bytes : l.bitmapBytes.toNat = (l.pages.toNat + 7) / 8
  storage : l.bitmapStorageBytes.toNat = l.bitmapPages.toNat * 4096
  bytes_le : l.bitmapBytes.toNat ≤ l.bitmapStorageBytes.toNat
  bitmapPages_lt : l.bitmapPages.toNat < l.pages.toNat
  kernel : l.managedStop.toNat ≤ kernel.start.toNat ∨ kernel.stop.toNat ≤ l.managedStart.toNat
  info : l.managedStart.toNat + l.bitmapStorageBytes.toNat ≤ info.start.toNat ∨
    info.stop.toNat ≤ l.managedStart.toNat

/-- The range begins in the page before the last one of the address space, behind its first address,
and does not reach the last one. -/
def WrapsAround (usable : U32 × U32) : Prop :=
  0xFFFFE000 < usable.1.toNat ∧ usable.2.toNat < 0xFFFFF000

/-- The numbers that one attempt computes from the number of pages. -/
theorem bitmap_numbers {pages : U32} (hlt : pages.toNat < 2 ^ 20) :
    ∃ bytes storage bitmapPages : U32, (pages + 7#32) / 8#32 = bytes ∧ alignUp bytes pageSize = storage ∧
      storage / pageSize = bitmapPages ∧ bytes.toNat = (pages.toNat + 7) / 8 ∧
      storage.toNat = bitmapPages.toNat * 4096 ∧ bytes.toNat ≤ storage.toNat ∧
      storage.toNat < bytes.toNat + 4096 := by
  refine ⟨_, _, _, rfl, rfl, rfl, ?_⟩
  obtain ⟨bytes, hbytes⟩ : ∃ x, (pages + 7#32) / 8#32 = x := ⟨_, rfl⟩
  have hbytesn : bytes.toNat = (pages.toNat + 7) / 8 := by
    have hadd : (pages + 7#32).toNat = pages.toNat + 7 := by bv_omega
    rw [← hbytes, BitVec.toNat_udiv, hadd]
    rfl
  rw [hbytes]
  obtain ⟨storage, hstorage⟩ : ∃ x, alignUp bytes pageSize = x := ⟨_, rfl⟩
  have hstoragen : storage.toNat = (bytes.toNat + 4095) / 4096 * 4096 := by
    rw [← hstorage]
    exact alignUp_toNat (by omega)
  have hdivn : (storage / pageSize).toNat = storage.toNat / 4096 := by
    rw [BitVec.toNat_udiv]
    rfl
  rw [hstorage, hdivn]
  omega

/-- The number of pages, when the start does not wrap. -/
theorem attempt_pages {start stop : U32} (hdvd : 4096 ∣ start.toNat) (hdvd' : 4096 ∣ stop.toNat)
    (hlt : start.toNat + 4096 < stop.toNat) :
    ∃ pages : U32, (stop - start) / pageSize = pages ∧
      start.toNat + pages.toNat * 4096 = stop.toNat := by
  refine ⟨_, rfl, ?_⟩
  rw [BitVec.toNat_udiv, BitVec.toNat_sub_of_le (by rw [BitVec.le_def]; omega),
    show pageSize.toNat = 4096 from rfl]
  omega

/-- **The layout loop**, for a range that does not wrap. -/
theorem layoutAttempts_spec {usable : U32 × U32} {kernel info : BootBlock} {n : ℕ} {start stop : U32}
    {l : RegionLayout} (h : layoutAttempts usable kernel info n start stop = some l)
    (hstart : usable.1.toNat ≤ start.toNat) (hstop : stop.toNat ≤ usable.2.toNat)
    (hmax : start.toNat ≤ 0xFFFFF000) (hwrap : ¬ WrapsAround (start, stop)) :
    l.Spec usable kernel info := by
  induction n generalizing start stop with
  | zero => cases h
  | succ n ih =>
    rw [layoutAttempts] at h
    dsimp only at h
    obtain ⟨pushed, hpushed, hge, hsmall, hkernel⟩ := kernelPush_spec kernel start stop
    rw [hpushed] at h
    obtain ⟨ms, hms⟩ : ∃ x, alignUp pushed pageSize = x := ⟨_, rfl⟩
    obtain ⟨me, hme⟩ : ∃ x, alignDown stop pageSize = x := ⟨_, rfl⟩
    have hmsn : ms.toNat = (pushed.toNat + 4095) / 4096 * 4096 := by
      rw [← hms]
      exact alignUp_toNat (by omega)
    have hmen : me.toNat = stop.toNat / 4096 * 4096 := by
      rw [← hme]
      exact alignDown_toNat stop
    rw [hms, hme] at h
    by_cases hempty : me ≤ ms + pageSize
    · rw [if_pos hempty] at h
      cases h
    rw [if_neg hempty] at h
    -- the check compares numbers, unless the start is the last page of the address space
    have hlt : ms.toNat + 4096 < me.toNat ∨ ms = me := by
      rw [BitVec.le_def, BitVec.toNat_add, show pageSize.toNat = 4096 from rfl] at hempty
      rw [← BitVec.toNat_inj]
      unfold WrapsAround at hwrap
      dsimp only at hwrap
      have hstop32 := stop.isLt
      omega
    rcases hlt with hlt | rfl
    · have hme32 := me.isLt
      obtain ⟨pages, hpages, hpagesn⟩ := attempt_pages (by omega) (by omega) hlt
      obtain ⟨bytes, storage, bitmapPages, hbytes, hstorage, hbitmap, hbytesn, hstoragen, hroom, -⟩ :=
        bitmap_numbers (by omega : pages.toNat < 2 ^ 20)
      rw [hpages] at h
      by_cases hfew : pages < 8#32
      · rw [if_pos hfew] at h
        cases h
      rw [if_neg hfew, hbytes, hstorage, hbitmap] at h
      by_cases hfull : bitmapPages ≥ pages
      · rw [if_pos hfull] at h
        cases h
      rw [if_neg hfull] at h
      have hfulln : bitmapPages.toNat < pages.toNat := by bv_omega
      have hsum : (ms + storage).toNat = ms.toNat + storage.toNat := by
        rw [BitVec.toNat_add]
        exact Nat.mod_eq_of_lt (by omega)
      have hinfo : info.start.toNat < info.stop.toNat := info.start_lt_stop
      have hover := rangesOverlap_iff ms (ms + storage) info.start info.stop
      rw [hsum] at hover
      by_cases hmeets : info.stop > info.start ∧
          rangesOverlap ms (ms + storage) info.start info.stop = true
      · -- the bitmap meets the information: one more attempt behind it
        rw [if_pos hmeets] at h
        have hover := hover.mp hmeets.2
        have hup := info.alignUp_stop
        have hle := info.stop_le
        refine ih h (by omega) (by omega) (by omega) ?_
        unfold WrapsAround
        dsimp only
        omega
      · rw [if_neg hmeets] at h
        obtain rfl := Option.some.inj h
        have hover := mt hover.mpr fun hover => hmeets ⟨info.start_lt_stop, hover⟩
        have hfewn : 8 ≤ pages.toNat := by bv_omega
        constructor <;> dsimp only <;> omega
    · -- there are no whole pages
      have hzero : (ms - ms) / pageSize < 8#32 := by
        rw [BitVec.sub_self]
        decide
      rw [if_pos hzero] at h
      cases h

/-- A layout of a usable range that no step carries past 2^32 lies in it, clear of the kernel and the block,
with room for its bitmap. -/
theorem pmmComputeRegionLayout_spec {usable : U32 × U32} {kernel info : BootBlock} {l : RegionLayout}
    (h : pmmComputeRegionLayout kernel info usable = some l) (hmax : usable.1.toNat ≤ 0xFFFFF000)
    (hwrap : ¬ WrapsAround usable) : l.Spec usable kernel info := by
  rw [pmmComputeRegionLayout] at h
  by_cases hempty : usable.2 ≤ usable.1
  · rw [if_pos hempty] at h
    cases h
  · rw [if_neg hempty] at h
    exact layoutAttempts_spec h le_rfl le_rfl hmax hwrap

/-! ### Every layout -/

/-- What `pmm_add_region` needs of a layout. -/
structure RegionLayout.Shape (l : RegionLayout) : Prop where
  start_dvd : 4096 ∣ l.managedStart.toNat
  pages_lt : l.pages.toNat < 2 ^ 20
  bytes : l.bitmapBytes.toNat = (l.pages.toNat + 7) / 8
  storage : l.bitmapStorageBytes.toNat = l.bitmapPages.toNat * 4096
  bytes_le : l.bitmapBytes.toNat ≤ l.bitmapStorageBytes.toNat
  storage_lt : l.bitmapStorageBytes.toNat < l.bitmapBytes.toNat + 4096
  bitmapPages_lt : l.bitmapPages.toNat < l.pages.toNat

/-- The layout loop, whatever the range: the managed pages end, round the address space, with the last
whole page. -/
theorem layoutAttempts_shape {usable : U32 × U32} {kernel info : BootBlock} {n : ℕ} {start stop : U32}
    {l : RegionLayout} (h : layoutAttempts usable kernel info n start stop = some l) :
    l.Shape ∧ l.managedStop.toNat = stop.toNat / 4096 * 4096 ∧
      (l.managedStart.toNat + l.pages.toNat * 4096) % 2 ^ 32 = l.managedStop.toNat ∧
      (l.managedStart.toNat + 4096 < 2 ^ 32 → l.managedStart.toNat < l.managedStop.toNat) := by
  induction n generalizing start stop with
  | zero => cases h
  | succ n ih =>
    rw [layoutAttempts] at h
    dsimp only at h
    obtain ⟨pushed, hpushed, -⟩ := kernelPush_spec kernel start stop
    rw [hpushed] at h
    obtain ⟨ms, hms⟩ : ∃ x, alignUp pushed pageSize = x := ⟨_, rfl⟩
    obtain ⟨me, hme⟩ : ∃ x, alignDown stop pageSize = x := ⟨_, rfl⟩
    have hdvd : 4096 ∣ ms.toNat := by
      rw [← hms]
      exact alignUp_dvd pushed
    have hmen : me.toNat = stop.toNat / 4096 * 4096 := by
      rw [← hme]
      exact alignDown_toNat stop
    rw [hms, hme] at h
    split at h
    · cases h
    rename_i hguard
    have hbelow : ms.toNat + 4096 < 2 ^ 32 → ms.toNat < me.toNat := by
      intro hlt
      rw [BitVec.not_le, BitVec.lt_def, BitVec.toNat_add, show pageSize.toNat = 4096 from rfl,
        Nat.mod_eq_of_lt hlt] at hguard
      omega
    obtain ⟨pages, hpages⟩ : ∃ x, (me - ms) / pageSize = x := ⟨_, rfl⟩
    have hsub : (me - ms).toNat = (2 ^ 32 - ms.toNat + me.toNat) % 2 ^ 32 := BitVec.toNat_sub me ms
    have hpagesn : pages.toNat = (me - ms).toNat / 4096 := by
      rw [← hpages, BitVec.toNat_udiv]
      rfl
    have hlt : pages.toNat < 2 ^ 20 := by
      have := (me - ms).isLt
      omega
    -- at the last page `ms + 4096` wraps in the guard, so `me < ms` is possible here
    have hmod : (ms.toNat + pages.toNat * 4096) % 2 ^ 32 = me.toNat := by
      have hms32 := ms.isLt
      have hme32 := me.isLt
      rw [hpagesn, Nat.div_mul_cancel (by omega), hsub, Nat.add_mod_mod, ← Nat.add_assoc,
        Nat.add_sub_cancel' hms32.le, Nat.add_mod_left, Nat.mod_eq_of_lt hme32]
    obtain ⟨bytes, storage, bitmapPages, hbytes, hstorage, hbitmap, hbytesn, hstoragen, hroom, hless⟩ :=
      bitmap_numbers hlt
    rw [hpages] at h
    split at h
    · cases h
    rw [hbytes, hstorage, hbitmap] at h
    split at h
    · cases h
    rename_i hfull
    split at h
    · obtain ⟨hshape, hstop, hsum⟩ := ih h
      rw [hmen, Nat.mul_div_cancel _ (by decide)] at hstop
      exact ⟨hshape, hstop, hsum⟩
    · obtain rfl := Option.some.inj h
      exact ⟨⟨hdvd, hlt, hbytesn, hstoragen, hroom, hless, BitVec.not_le.mp hfull⟩, hmen, hmod, hbelow⟩

/-- The last check of an attempt: the bitmap misses the Multiboot2 information, when its end does not wrap
around. -/
theorem layoutAttempts_info {usable : U32 × U32} {kernel info : BootBlock} {n : ℕ} {start stop : U32}
    {l : RegionLayout} (h : layoutAttempts usable kernel info n start stop = some l)
    (hsum : l.managedStart.toNat + l.bitmapStorageBytes.toNat < 2 ^ 32) {x : ℕ}
    (hle : l.managedStart.toNat ≤ x) (hlt : x < l.managedStart.toNat + l.bitmapStorageBytes.toNat) :
    ¬ (info.start.toNat ≤ x ∧ x < info.stop.toNat) := by
  induction n generalizing start stop with
  | zero => cases h
  | succ n ih =>
    rw [layoutAttempts] at h
    dsimp only at h
    obtain ⟨pushed, hpushed, -⟩ := kernelPush_spec kernel start stop
    rw [hpushed] at h
    split at h
    · cases h
    split at h
    · cases h
    split at h
    · cases h
    split at h
    · exact ih h
    · rename_i hclear
      obtain rfl := Option.some.inj h
      dsimp only at hsum hle hlt
      rintro ⟨hge, hbelow⟩
      refine hclear ⟨info.start_lt_stop, (rangesOverlap_iff ..).mpr ?_⟩
      rw [BitVec.toNat_add, Nat.mod_eq_of_lt hsum]
      omega

/-! ### The layout that wraps -/

/-- The layout of a range that wraps around: it begins with the last page of the address space and goes
round it. -/
def wrappedLayout (usable : U32 × U32) : RegionLayout :=
  ⟨usable.1, usable.2, 0xFFFFF000#32, 0xFFFFE000#32, 0xFFFFF#32, 0x20000#32, 0x20000#32, 32#32⟩

/-- A range that carries the rounding past 2^32 gives the wrapped layout, whatever the kernel and the block
are. -/
theorem pmmComputeRegionLayout_wraps {usable : U32 × U32} (kernel info : BootBlock)
    (hlt : usable.1.toNat < usable.2.toNat) (hwrap : WrapsAround usable) :
    pmmComputeRegionLayout kernel info usable = some (wrappedLayout usable) := by
  obtain ⟨hstart, hstop⟩ := hwrap
  have hk := kernel.stop_le
  have hi := info.stop_le
  have hkernel : ¬ rangesOverlap usable.1 usable.2 kernel.start kernel.stop = true := by
    rw [rangesOverlap_iff]
    omega
  have hms : alignUp usable.1 pageSize = 0xFFFFF000#32 := by
    apply BitVec.eq_of_toNat_eq
    rw [alignUp_toNat (by omega)]
    show _ = 0xFFFFF000
    omega
  have hme : alignDown usable.2 pageSize = 0xFFFFE000#32 := by
    apply BitVec.eq_of_toNat_eq
    rw [alignDown_toNat]
    show _ = 0xFFFFE000
    omega
  have hinfo : ¬ (info.stop > info.start ∧
      rangesOverlap 0xFFFFF000#32 (0xFFFFF000#32 + 0x20000#32) info.start info.stop = true) := by
    rintro ⟨-, hover⟩
    rw [rangesOverlap_iff] at hover
    have : (0xFFFFF000#32).toNat = 0xFFFFF000 := rfl
    omega
  have hempty : ¬ usable.2 ≤ usable.1 := by
    rw [BitVec.le_def]
    omega
  rw [pmmComputeRegionLayout, if_neg hempty, layoutAttempts]
  dsimp only
  rw [if_neg hkernel, hms, hme]
  -- everything but the check against the information is a computation
  have hpages : (0xFFFFE000#32 - 0xFFFFF000#32) / pageSize = 0xFFFFF#32 := by decide
  have hbytes : (0xFFFFF#32 + 7#32) / 8#32 = 0x20000#32 := by decide
  have hstorage : alignUp 0x20000#32 pageSize = 0x20000#32 := by decide
  have hbitmap : 0x20000#32 / pageSize = 32#32 := by decide
  rw [if_neg (by decide), hpages, if_neg (by decide), hbytes, hstorage, hbitmap, if_neg (by decide),
    if_neg hinfo]
  rfl

/-! ### The layout of an entry -/

/-- The layout of the region for an entry, if there is one. -/
def entryLayout (kernel info : BootBlock) (e : Mb2MmapEntry) : Option RegionLayout :=
  (clipEntry e).bind (pmmComputeRegionLayout kernel info)

/-- A layout computed from an entry has the shape of a region, wrapped or not. -/
theorem entryLayout_shape {kernel info : BootBlock} {e : Mb2MmapEntry} {l : RegionLayout}
    (h : entryLayout kernel info e = some l) : l.Shape := by
  obtain ⟨usable, -, hl⟩ := Option.bind_eq_some_iff.mp h
  rw [pmmComputeRegionLayout] at hl
  split at hl
  · cases hl
  · exact (layoutAttempts_shape hl).1

/-- A layout that starts in front of the last page ends in the address space. -/
theorem entryLayout_fits {kernel info : BootBlock} {e : Mb2MmapEntry} {l : RegionLayout}
    (h : entryLayout kernel info e = some l) (hlow : l.managedStart.toNat + 4096 < 2 ^ 32) :
    l.managedStart.toNat + l.pages.toNat * 4096 < 2 ^ 32 := by
  obtain ⟨usable, -, hl⟩ := Option.bind_eq_some_iff.mp h
  rw [pmmComputeRegionLayout] at hl
  split at hl
  · cases hl
  obtain ⟨hshape, -, hsum, hbelow⟩ := layoutAttempts_shape hl
  have hlt := hshape.pages_lt
  have hstop := hbelow hlow
  omega

/-- The bitmap of an entry misses the Multiboot2 information, when its end does not wrap around. -/
theorem entryLayout_info {kernel info : BootBlock} {e : Mb2MmapEntry} {l : RegionLayout}
    (h : entryLayout kernel info e = some l)
    (hsum : l.managedStart.toNat + l.bitmapStorageBytes.toNat < 2 ^ 32) {x : ℕ}
    (hle : l.managedStart.toNat ≤ x) (hlt : x < l.managedStart.toNat + l.bitmapStorageBytes.toNat) :
    ¬ (info.start.toNat ≤ x ∧ x < info.stop.toNat) := by
  obtain ⟨usable, -, hl⟩ := Option.bind_eq_some_iff.mp h
  rw [pmmComputeRegionLayout] at hl
  split at hl
  · cases hl
  · exact layoutAttempts_info hl hsum hle hlt

/-- An entry has a layout that ends at or below 1 GiB only within its memory. -/
theorem entryLayout_low {kernel info : BootBlock} {e : Mb2MmapEntry} {l : RegionLayout}
    (h : entryLayout kernel info e = some l)
    (hlow : l.managedStart.toNat + l.pages.toNat * 4096 ≤ 2 ^ 30) :
    ∃ usable, Clips e usable ∧ l.Spec usable kernel info := by
  obtain ⟨usable, hclip, hl⟩ := Option.bind_eq_some_iff.mp h
  have hclips := clipEntry_clips hclip
  refine ⟨usable, hclips, ?_⟩
  -- the range ends in the page behind the layout at the latest
  have hlt := hclips.lt
  have hl' := hl
  rw [pmmComputeRegionLayout] at hl'
  split at hl'
  · cases hl'
  obtain ⟨-, hstop, hsum, -⟩ := layoutAttempts_shape hl'
  have hwrap : ¬ WrapsAround usable := by
    unfold WrapsAround
    omega
  exact pmmComputeRegionLayout_spec hl (by omega) hwrap

/-- An entry has a layout within its memory, or one that wraps around. -/
theorem entryLayout_cases {kernel info : BootBlock} {e : Mb2MmapEntry} {l : RegionLayout}
    (h : entryLayout kernel info e = some l) (hmax : e.Usable → e.addr.toNat ≤ 0xFFFFF000) :
    (∃ usable, Clips e usable ∧ l.Spec usable kernel info) ∨
      e.InLastPages ∧ ∃ usable, l = wrappedLayout usable := by
  obtain ⟨usable, hclip, hl⟩ := Option.bind_eq_some_iff.mp h
  have hclips := clipEntry_clips hclip
  have haddr := hmax hclips.isUsable
  have hstart := hclips.start_eq
  by_cases hwrap : WrapsAround usable
  · right
    have hlt := hclips.lt
    have hstop := hclips.stop_eq
    rw [pmmComputeRegionLayout_wraps kernel info hlt hwrap] at hl
    unfold WrapsAround at hwrap
    exact ⟨⟨hclips.isUsable, by omega, by omega, by omega⟩, usable, (Option.some.inj hl).symm⟩
  · exact .inl ⟨usable, hclips, pmmComputeRegionLayout_spec hl (by omega) hwrap⟩

/-- An entry in the last pages has the layout that wraps around. -/
theorem Mb2MmapEntry.InLastPages.entryLayout {e : Mb2MmapEntry} (h : e.InLastPages)
    (kernel info : BootBlock) : ∃ usable, Pmm.entryLayout kernel info e = some (wrappedLayout usable) := by
  obtain ⟨usable, hclip, hstart, hstop⟩ := h.clipEntry
  have hlt := h.lt_addr
  have hpos := h.len_pos
  have hend := h.stop_lt
  refine ⟨usable, ?_⟩
  rw [Pmm.entryLayout, hclip, Option.bind_some]
  exact pmmComputeRegionLayout_wraps kernel info (by omega) ⟨by omega, by omega⟩

end Microkernel.Pmm
