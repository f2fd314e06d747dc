import Microkernel.Pmm.BuddyRun

/-! # The layout of the buddy zone

Steps 1 and 2 of `pmm_buddy_init`: the largest usable range is chosen, its start is pushed past the
kernel image and the Multiboot2 information, and the page descriptors are put in front of the managed
pages. The pushes look at ends rounded up to a page, so a block in the last, partly usable page of the
range is not skipped.

* **`BuddyLayout.Spec`** — what step 2 guarantees for any input.
* **`BuddyLayout.Safe`, `BuddyLayout.descriptorByte`** — the managed pages and the descriptors lie in the
  chosen range and clear of both blocks; a descriptor is where its pointer leads through the boot
  directory.
* **`pmmBuddyLayout_safe_iff`** — exactly when both blocks are clear of the last page of the range and the
  descriptors end at 1 GiB or below.
-/

namespace Microkernel.Pmm

/-- `sizeof(page_info_t)`. -/
def pageInfoSize : U32 := 12#32

/-- The range of usable memory that step 1 keeps when it comes to an entry. -/
def buddyConsider (best : U32 × U32) (e : Mb2MmapEntry) : U32 × U32 :=
  let s64 := e.addr
  let e64 := e.addr + e.len
  if e.type ≠ 1#32 then best
  else if s64 ≥ 0x100000000#64 then best
  else
    let rs : U32 := s64.setWidth 32
    let re : U32 := if e64 ≥ 0x100000000#64 then 0xFFFFFFFF#32 else e64.setWidth 32
    if re ≤ 0x100000#32 then best
    else
      let rs := if rs < 0x100000#32 then 0x100000#32 else rs
      if re ≤ rs then best
      else if re - rs > best.2 - best.1 then (rs, re) else best

/-- Step 1: `best_start` and `best_end`. -/
def buddyBestRegion (entries : List Mb2MmapEntry) : U32 × U32 :=
  entries.foldl buddyConsider (0#32, 0#32)

/-- What step 2 decides. -/
structure BuddyLayout where
  /-- `region_start`: the page descriptors start here. -/
  regionStart : U32
  /-- `info_pages`. -/
  infoPages : U32
  /-- `managed_start`. -/
  managedStart : U32
  /-- `managed_end`. -/
  managedEnd : U32
  /-- `managed_pages`. -/
  managedPages : U32

/-- Step 2, or `none` when the backend stays disabled. -/
def buddyLayout (best : U32 × U32) (kernelPhysEnd mb2Phys mb2Size : U32) : Option BuddyLayout :=
  if best.2 ≤ best.1 ∨ best.2 - best.1 < 32#32 * pageSize then none
  else
    let kEndPhys := alignUp kernelPhysEnd pageSize
    let mb2EndP := alignUp (mb2Phys + mb2Size) pageSize
    let safeStart := best.1
    let safeStart := if kEndPhys > safeStart ∧ kEndPhys ≤ best.2 then kEndPhys else safeStart
    let safeStart := if mb2EndP > safeStart ∧ mb2EndP ≤ best.2 then mb2EndP else safeStart
    let regionStart := alignUp safeStart pageSize
    let regionEnd := alignDown best.2 pageSize
    let regionPages := (regionEnd - regionStart) / pageSize
    let infoPages := alignUp (regionPages * pageInfoSize) pageSize / pageSize
    if infoPages ≥ regionPages then none
    else
      let managedStart := regionStart + infoPages * pageSize
      let managedPages := (regionEnd - managedStart) / pageSize
      if managedPages < 16#32 then none
      else some ⟨regionStart, infoPages, managedStart, regionEnd, managedPages⟩

/-- Steps 1 and 2 for a memory map, a kernel image and a Multiboot2 information block. -/
def pmmBuddyLayout (entries : List Mb2MmapEntry) (kernel info : BootBlock) : Option BuddyLayout :=
  buddyLayout (buddyBestRegion entries) kernel.stop info.start (info.stop - info.start)

/-- `pmm_buddy_init()`, where the entries of the memory map have been found. -/
def pmmBuddyInit (entries : List Mb2MmapEntry) (kernel info : BootBlock) (s : BuddyState) :
    Option BuddyState :=
  let s := buddyReset s
  match pmmBuddyLayout entries kernel info with
  | none => some s
  | some l => (buddyInitZone l.regionStart l.managedStart l.managedPages s).bind buddySelftest

/-! ### The chosen range -/

/-- The range is empty, or a usable entry clipped to the 32-bit addresses from 1 MiB on. -/
def InUsableEntry (entries : List Mb2MmapEntry) (r : U32 × U32) : Prop :=
  r = (0#32, 0#32) ∨ r.1 < r.2 ∧ 0x100000#32 ≤ r.1 ∧
    ∃ e ∈ entries, e.Usable ∧ e.addr.toNat ≤ r.1.toNat ∧ r.2.toNat ≤ e.addr.toNat + e.len.toNat

/-- Considering an entry of the map leaves the best range inside a usable entry. -/
theorem buddyConsider_inUsableEntry {entries : List Mb2MmapEntry} {best : U32 × U32}
    {e : Mb2MmapEntry} (he : e ∈ entries) (h : InUsableEntry entries best) :
    InUsableEntry entries (buddyConsider best e) := by
  unfold buddyConsider
  dsimp only
  by_cases htype : e.type ≠ 1#32
  · rwa [if_pos htype]
  rw [if_neg htype]
  by_cases hhigh : e.addr ≥ 0x100000000#64
  · rwa [if_pos hhigh]
  rw [if_neg hhigh]
  have hs : (e.addr.setWidth 32).toNat = e.addr.toNat := by bv_omega
  -- the end, which saturates
  obtain ⟨re, hre⟩ : ∃ re : U32, (if e.addr + e.len ≥ 0x100000000#64 then 0xFFFFFFFF#32
      else (e.addr + e.len).setWidth 32) = re := ⟨_, rfl⟩
  have hend : e.addr.toNat ≤ re.toNat → re.toNat ≤ e.addr.toNat + e.len.toNat := by
    intro hle
    by_cases hsat : e.addr + e.len ≥ 0x100000000#64
    · rw [if_pos hsat] at hre
      subst hre
      bv_omega
    · rw [if_neg hsat] at hre
      subst hre
      bv_omega
  rw [hre]
  by_cases hlow : re ≤ 0x100000#32
  · rwa [if_pos hlow]
  rw [if_neg hlow]
  obtain ⟨rs, hrs⟩ : ∃ rs : U32, (if (e.addr.setWidth 32 : U32) < 0x100000#32 then 0x100000#32
      else e.addr.setWidth 32) = rs := ⟨_, rfl⟩
  have hstart : e.addr.toNat ≤ rs.toNat ∧ 0x100000#32 ≤ rs := by
    by_cases hclip : (e.addr.setWidth 32 : U32) < 0x100000#32
    · rw [if_pos hclip] at hrs
      subst hrs
      bv_omega
    · rw [if_neg hclip] at hrs
      subst hrs
      bv_omega
  rw [hrs]
  by_cases hempty : re ≤ rs
  · rwa [if_pos hempty]
  rw [if_neg hempty]
  split
  · refine .inr ⟨BitVec.not_le.mp hempty, hstart.2, e, he, not_not.mp htype, hstart.1, hend ?_⟩
    exact hstart.1.trans (by bv_omega)
  · exact h

/-- The best range lies inside a usable entry, or is empty. -/
theorem buddyBestRegion_inUsableEntry (entries : List Mb2MmapEntry) :
    InUsableEntry entries (buddyBestRegion entries) := by
  have hfold : ∀ (l : List Mb2MmapEntry) (best : U32 × U32), (∀ e ∈ l, e ∈ entries) →
      InUsableEntry entries best → InUsableEntry entries (l.foldl buddyConsider best) := by
    intro l
    induction l with
    | nil => exact fun _ _ h => h
    | cons e l ih =>
      intro best hsub h
      exact ih _ (fun x hx => hsub x (List.mem_cons_of_mem _ hx))
        (buddyConsider_inUsableEntry (hsub e (by simp)) h)
  exact hfold entries _ (fun _ h => h) (.inl rfl)

/-! ### The layout in numbers -/

/-- The start after the two pushes. -/
theorem safeStart_spec {bs be k m : U32} (hlt : bs.toNat + 32 * 4096 ≤ be.toNat)
    (hk : 4096 ∣ k.toNat) (hm : 4096 ∣ m.toNat) :
    ∃ safe : U32, (if m > (if k > bs ∧ k ≤ be then k else bs) ∧ m ≤ be then m
        else if k > bs ∧ k ≤ be then k else bs) = safe ∧
      bs.toNat ≤ safe.toNat ∧ (safe.toNat + 4095) / 4096 * 4096 ≤ be.toNat / 4096 * 4096 ∧
      (k.toNat ≤ be.toNat → k.toNat ≤ safe.toNat) ∧ (m.toNat ≤ be.toNat → m.toNat ≤ safe.toNat) ∧
      (safe = bs ∨ safe = k ∨ safe = m) := by
  refine ⟨_, rfl, ?_⟩
  -- the first push
  obtain ⟨s₁, hs₁, hle₁, hup₁, hk₁, hone⟩ : ∃ s₁ : U32, (if k > bs ∧ k ≤ be then k else bs) = s₁ ∧
      bs.toNat ≤ s₁.toNat ∧ (s₁.toNat + 4095) / 4096 * 4096 ≤ be.toNat / 4096 * 4096 ∧
      (k.toNat ≤ be.toNat → k.toNat ≤ s₁.toNat) ∧ (s₁ = bs ∨ s₁ = k) := by
    refine ⟨_, rfl, ?_⟩
    split
    · rename_i h
      rw [gt_iff_lt, BitVec.lt_def, BitVec.le_def] at h
      refine ⟨?_, ?_, ?_, .inr rfl⟩ <;> omega
    · rename_i h
      rw [gt_iff_lt, BitVec.lt_def, BitVec.le_def] at h
      refine ⟨?_, ?_, ?_, .inl rfl⟩ <;> omega
  rw [hs₁]
  split
  · rename_i h
    rw [gt_iff_lt, BitVec.lt_def, BitVec.le_def] at h
    have hround : (m.toNat + 4095) / 4096 * 4096 = m.toNat := by
      clear * - hm
      omega
    refine ⟨by omega, ?_, by omega, fun _ => le_rfl, .inr (.inr rfl)⟩
    rw [hround]
    clear * - hm h
    omega
  · rename_i h
    rw [gt_iff_lt, BitVec.lt_def, BitVec.le_def] at h
    refine ⟨?_, ?_, ?_, ?_, hone.imp_right .inl⟩ <;> omega

/-- What the layout guarantees, whatever it was given. -/
structure BuddyLayout.Spec (l : BuddyLayout) (best : U32 × U32) (kernel info : BootBlock) : Prop where
  best_lt : best.1.toNat + 32 * 4096 ≤ best.2.toNat
  start_dvd : 4096 ∣ l.regionStart.toNat
  start_ge : best.1.toNat ≤ l.regionStart.toNat
  start_le : l.regionStart.toNat < best.1.toNat + 4096 ∨ l.regionStart.toNat ≤ 2 ^ 30
  managedStart : l.managedStart.toNat = l.regionStart.toNat + l.infoPages.toNat * 4096
  managedEnd : l.managedEnd.toNat = best.2.toNat / 4096 * 4096
  managedPages : l.managedStart.toNat + l.managedPages.toNat * 4096 = l.managedEnd.toNat
  room : 12 * l.managedPages.toNat ≤ l.infoPages.toNat * 4096
  enough : 16 ≤ l.managedPages.toNat
  kernel : (alignUp kernel.stop pageSize).toNat ≤ best.2.toNat →
    (alignUp kernel.stop pageSize).toNat ≤ l.regionStart.toNat
  info : (alignUp info.stop pageSize).toNat ≤ best.2.toNat →
    (alignUp info.stop pageSize).toNat ≤ l.regionStart.toNat

/-- A layout of a best range lies in it, clear of the kernel and the block, with room for the descriptors. -/
theorem buddyLayout_spec {best : U32 × U32} {kernel info : BootBlock} {l : BuddyLayout}
    (h : buddyLayout best kernel.stop info.start (info.stop - info.start) = some l) :
    l.Spec best kernel info := by
  obtain ⟨bs, be⟩ := best
  have hinfo : info.start + (info.stop - info.start) = info.stop := by
    have := info.start_lt_stop
    bv_omega
  have hkdvd : 4096 ∣ (alignUp kernel.stop pageSize).toNat := by
    rw [kernel.alignUp_stop]
    exact Nat.dvd_mul_left ..
  have hmdvd : 4096 ∣ (alignUp info.stop pageSize).toNat := by
    rw [info.alignUp_stop]
    exact Nat.dvd_mul_left ..
  unfold buddyLayout at h
  rw [hinfo] at h
  by_cases hsmall : be ≤ bs ∨ be - bs < 32#32 * pageSize
  · rw [if_pos hsmall] at h
    cases h
  rw [if_neg hsmall] at h
  have hlt : bs.toNat + 32 * 4096 ≤ be.toNat := by
    unfold pageSize at hsmall
    bv_omega
  obtain ⟨safe, hsafe, hge, hup, hk, hm, hone⟩ := safeStart_spec hlt hkdvd hmdvd
  dsimp only at h
  rw [hsafe] at h
  have hbe := be.isLt
  -- the bounds of the region
  obtain ⟨rs, hrs⟩ : ∃ rs, alignUp safe pageSize = rs := ⟨_, rfl⟩
  obtain ⟨re, hre⟩ : ∃ re, alignDown be pageSize = re := ⟨_, rfl⟩
  have hrsn : rs.toNat = (safe.toNat + 4095) / 4096 * 4096 := by
    rw [← hrs]
    exact alignUp_toNat (by omega)
  have hren : re.toNat = be.toNat / 4096 * 4096 := by
    rw [← hre]
    exact alignDown_toNat be
  rw [hrs, hre] at h
  obtain ⟨pages, hpages⟩ : ∃ pages, (re - rs) / pageSize = pages := ⟨_, rfl⟩
  have hpagesn : pages.toNat = (re.toNat - rs.toNat) / 4096 := by
    rw [← hpages, BitVec.toNat_udiv, BitVec.toNat_sub_of_le (by rw [BitVec.le_def]; omega)]
    rfl
  rw [hpages] at h
  obtain ⟨ip, hip⟩ : ∃ ip, alignUp (pages * pageInfoSize) pageSize / pageSize = ip := ⟨_, rfl⟩
  have hipn : ip.toNat = (pages.toNat * 12 + 4095) / 4096 := by
    have hmul : (pages * pageInfoSize).toNat = pages.toNat * 12 := by
      rw [BitVec.toNat_mul, show pageInfoSize.toNat = 12 from rfl, Nat.mod_eq_of_lt (by omega)]
    rw [← hip, BitVec.toNat_udiv, alignUp_toNat (by omega), hmul]
    exact Nat.mul_div_cancel _ (by decide)
  rw [hip] at h
  by_cases hinfo' : ip ≥ pages
  · rw [if_pos hinfo'] at h
    cases h
  rw [if_neg hinfo'] at h
  have hiplt : ip.toNat < pages.toNat := by bv_omega
  obtain ⟨ms, hms⟩ : ∃ ms, rs + ip * pageSize = ms := ⟨_, rfl⟩
  have hmsn : ms.toNat = rs.toNat + ip.toNat * 4096 := by
    rw [← hms, BitVec.toNat_add, BitVec.toNat_mul, show pageSize.toNat = 4096 from rfl,
      Nat.mod_eq_of_lt (a := ip.toNat * 4096) (by omega), Nat.mod_eq_of_lt (by omega)]
  rw [hms] at h
  obtain ⟨mp, hmp⟩ : ∃ mp, (re - ms) / pageSize = mp := ⟨_, rfl⟩
  have hmpn : mp.toNat = (re.toNat - ms.toNat) / 4096 := by
    rw [← hmp, BitVec.toNat_udiv, BitVec.toNat_sub_of_le (by rw [BitVec.le_def]; omega)]
    rfl
  rw [hmp] at h
  by_cases hfew : mp < 16#32
  · rw [if_pos hfew] at h
    cases h
  rw [if_neg hfew] at h
  obtain rfl := Option.some.inj h
  have hmany : 16 ≤ mp.toNat := by bv_omega
  -- the start is that of the range, or the end of one of the blocks, which end below 1 GiB
  have hlow : rs.toNat < bs.toNat + 4096 ∨ rs.toNat ≤ 2 ^ 30 := by
    have hkle := kernel.stop_le
    have hmle := info.stop_le
    have hkn := kernel.alignUp_stop
    have hmn := info.alignUp_stop
    rcases hone with h | h | h <;> rw [h] at hrsn <;> omega
  constructor <;> dsimp only <;> omega

/-! ### Safety -/

/-- Byte `k` of the page descriptors: `g_zone.pages` is `PHYS_TO_VIRT(region_start)`, a pointer that wraps
around from 1 GiB on. -/
def BuddyLayout.descriptorByte (l : BuddyLayout) (k : ℕ) : Option U32 :=
  bootTranslate (physToVirt l.regionStart + BitVec.ofNat 32 k)

/-- The address is in a managed page. -/
def BuddyLayout.Manages (l : BuddyLayout) (a : ℕ) : Prop :=
  l.managedStart.toNat ≤ a ∧ a < l.managedStart.toNat + l.managedPages.toNat * 4096

/-- The address is in the chosen range. -/
def InBestRegion (entries : List Mb2MmapEntry) (a : ℕ) : Prop :=
  (buddyBestRegion entries).1.toNat ≤ a ∧ a < (buddyBestRegion entries).2.toNat

/-- **The layout is safe**: the chosen range is usable memory of one entry from 1 MiB on, and in it lie the
managed pages and a descriptor for each of them, which the code can write; no descriptor lies in a managed
page, and neither overlaps the kernel image or the Multiboot2 information. -/
structure BuddyLayout.Safe (l : BuddyLayout) (entries : List Mb2MmapEntry) (kernel info : BootBlock) :
    Prop where
  usable : ∃ e ∈ entries, e.Usable ∧ ∀ a, InBestRegion entries a → 2 ^ 20 ≤ a ∧ e.Has a
  managed : ∀ a, l.Manages a → InBestRegion entries a
  descriptors : ∀ k < l.managedPages.toNat * 12, ∃ a, l.descriptorByte k = some a ∧
    InBestRegion entries a.toNat ∧ ¬ l.Manages a.toNat
  avoids : ∀ b ∈ [kernel, info], ∀ a, b.start.toNat ≤ a → a < b.stop.toNat →
    ¬ l.Manages a ∧ ∀ k < l.managedPages.toNat * 12, ∀ d, l.descriptorByte k = some d → d.toNat ≠ a

/-- The page descriptors end at 1 GiB or below, in front of the addresses whose `PHYS_TO_VIRT` wraps. -/
def BuddyLayout.DescriptorsLow (l : BuddyLayout) : Prop :=
  l.regionStart.toNat + l.managedPages.toNat * 12 ≤ 2 ^ 30

/-- Below 1 GiB the pointer to the descriptors is translated to where the layout puts them. -/
theorem BuddyLayout.DescriptorsLow.descriptorByte {l : BuddyLayout} (h : l.DescriptorsLow) {k : ℕ}
    (hk : k < l.managedPages.toNat * 12) :
    ∃ a, l.descriptorByte k = some a ∧ a.toNat = l.regionStart.toNat + k := by
  unfold BuddyLayout.DescriptorsLow at h
  refine ⟨_, bootTranslate_physToVirt (by omega), ?_⟩
  rw [BitVec.toNat_add, BitVec.toNat_ofNat]
  omega

/-- **Descriptors past 1 GiB leave the chosen range**: the first of them that wraps lies in front of it. -/
theorem BuddyLayout.Spec.descriptorsLow {l : BuddyLayout} {best : U32 × U32} {kernel info : BootBlock}
    (h : l.Spec best kernel info) (hmib : 2 ^ 20 ≤ best.1.toNat)
    (hin : ∀ k < l.managedPages.toNat * 12, ∃ a, l.descriptorByte k = some a ∧ best.1.toNat ≤ a.toNat) :
    l.DescriptorsLow := by
  have hnum := h.managedStart
  have hend := h.managedEnd
  have hpages := h.managedPages
  have hroom := h.room
  have henough := h.enough
  have hlow := h.start_le
  have hbest := best.2.isLt
  by_contra hhigh
  unfold BuddyLayout.DescriptorsLow at hhigh
  obtain ⟨a, ha, hge⟩ := hin (2 ^ 30 - l.regionStart.toNat) (by omega)
  have hwrap := bootTranslate_physToVirt_wraps (by omega) (by omega) ha
  omega

/-- The block ends, rounded up, within the chosen range, or it starts behind the last whole page of the
range. -/
def BootBlock.ClearOf (b : BootBlock) (best : U32 × U32) : Prop :=
  alignUp b.stop pageSize ≤ best.2 ∨ alignDown best.2 pageSize ≤ b.start

/-- **The layout is safe exactly when both blocks are clear of the last page of the chosen range** and the
descriptors end at 1 GiB or below. -/
theorem pmmBuddyLayout_safe_iff {entries : List Mb2MmapEntry} {kernel info : BootBlock}
    {l : BuddyLayout} (h : pmmBuddyLayout entries kernel info = some l) :
    l.Safe entries kernel info ↔
      (∀ b ∈ [kernel, info], b.ClearOf (buddyBestRegion entries)) ∧ l.DescriptorsLow := by
  have hspec := buddyLayout_spec h
  obtain ⟨-, hmib, e, he, husable, hs, hstop⟩ :=
    (buddyBestRegion_inUsableEntry entries).resolve_left fun hzero => by
      have := hspec.best_lt
      rw [hzero] at this
      exact absurd this (by decide)
  rw [BitVec.le_def, show (0x100000#32).toNat = 2 ^ 20 from rfl] at hmib
  -- the block is pushed past when it ends, rounded up, in the range
  have hpush : ∀ b ∈ [kernel, info], (alignUp b.stop pageSize).toNat ≤ (buddyBestRegion entries).2.toNat →
      (alignUp b.stop pageSize).toNat ≤ l.regionStart.toNat := by
    intro b hb
    rcases List.mem_cons.mp hb with rfl | hb
    · exact hspec.kernel
    · rw [List.mem_singleton.mp hb]
      exact hspec.info
  have hnum := hspec.managedStart
  have hend := hspec.managedEnd
  have hpages := hspec.managedPages
  have hroom := hspec.room
  have henough := hspec.enough
  have hge := hspec.start_ge
  constructor
  · intro hsafe
    refine ⟨fun b hb => ?_, hspec.descriptorsLow hmib fun k hk => ?_⟩
    · by_contra hclear
      unfold BootBlock.ClearOf at hclear
      rw [not_or, BitVec.le_def, BitVec.le_def, alignDown_toNat, b.alignUp_stop] at hclear
      have hlt := b.start_lt_stop
      rw [BitVec.lt_def] at hlt
      -- the block reaches over the end of the last managed page
      refine (hsafe.avoids b hb (max b.start.toNat l.managedStart.toNat) (by omega) (by omega)).1 ?_
      unfold BuddyLayout.Manages
      omega
    · obtain ⟨a, ha, hin, -⟩ := hsafe.descriptors k hk
      exact ⟨a, ha, hin.1⟩
  · rintro ⟨hclear, hlow⟩
    refine ⟨⟨e, he, husable, fun a ha => ?_⟩, fun a ha => ?_, fun k hk => ?_, fun b hb a h₁ h₂ => ?_⟩
    · unfold InBestRegion at ha
      unfold Mb2MmapEntry.Has
      omega
    · unfold BuddyLayout.Manages at ha
      unfold InBestRegion
      omega
    · obtain ⟨a, ha, hnat⟩ := hlow.descriptorByte hk
      unfold InBestRegion BuddyLayout.Manages
      exact ⟨a, ha, by omega, by omega⟩
    · have hp := hpush b hb
      have hc := hclear b hb
      unfold BootBlock.ClearOf at hc
      rw [BitVec.le_def, BitVec.le_def, alignDown_toNat] at hc
      rw [b.alignUp_stop] at hp hc
      refine ⟨?_, fun k hk d hd => ?_⟩
      · unfold BuddyLayout.Manages
        omega
      · obtain ⟨a', ha', hnat⟩ := hlow.descriptorByte hk
        obtain rfl := Option.some.inj (ha'.symm.trans hd)
        omega

/-- Memory from 1 MiB to 2 KiB behind the end of 16 MiB. -/
def partialPageMap : List Mb2MmapEntry := [⟨0x100000#64, 0xF00800#64, 1#32⟩]

/-- Multiboot2 information that begins in the last whole page of the map and ends in the partial one. -/
def tailInfo : BootBlock := ⟨0xFFF000#32, 0x1000400#32, by decide, by decide⟩

/-- The case of a usable entry that ends inside a page. -/
theorem pmmBuddyLayout_safe_iff_low :
    ∃ l, pmmBuddyLayout partialPageMap lowKernel lowInfo = some l ∧
      (l.Safe partialPageMap lowKernel lowInfo ↔
        (∀ b ∈ [lowKernel, lowInfo], b.ClearOf (buddyBestRegion partialPageMap)) ∧ l.DescriptorsLow) :=
  ⟨_, rfl, pmmBuddyLayout_safe_iff rfl⟩

/-- The Multiboot2 information in the partial page is not skipped: its first page is managed. -/
theorem pmmBuddyLayout_overlaps_info :
    ¬ ∀ entries kernel info l, DisjointUsable entries → kernel.InUsable entries →
      info.InUsable entries → pmmBuddyLayout entries kernel info = some l →
      l.Safe entries kernel info := by
  intro hall
  have husable : ∀ b : BootBlock, 0x100000 ≤ b.start.toNat → b.stop.toNat ≤ 0x1000800 →
      b.InUsable partialPageMap := by
    intro b h₁ h₂ a ha ha'
    refine ⟨_, List.mem_singleton_self _, rfl, ?_⟩
    show 0x100000 ≤ a ∧ a < 0x100000 + 0xF00800
    omega
  have hsafe := hall partialPageMap lowKernel tailInfo
    ⟨0x200000#32, 11#32, 0x20B000#32, 0x1000000#32, 3573#32⟩ (List.pairwise_singleton ..)
    (husable _ (by decide) (by decide)) (husable _ (by decide) (by decide)) rfl
  -- the page at `0xFFF000` is the last managed page
  exact (hsafe.avoids tailInfo (by simp) 0xFFF000 (by decide) (by decide)).1 (by
    unfold BuddyLayout.Manages
    decide)

/-! ### Initialisation -/

/-- A layout that was found is an area for the buddy zone, and `pmm_buddy_init` initialises it. -/
theorem pmmBuddyInit_eq {entries : List Mb2MmapEntry} {kernel info : BootBlock} {l : BuddyLayout}
    (h : pmmBuddyLayout entries kernel info = some l) (s : BuddyState) :
    ∃ A : BuddyArea, A.regionStart = l.regionStart ∧ A.managedStart = l.managedStart ∧
      A.managedPages = l.managedPages ∧ pmmBuddyInit entries kernel info s = buddyInitArea A s := by
  have hspec := buddyLayout_spec h
  have hbest := buddyBestRegion_inUsableEntry entries
  generalize buddyBestRegion entries = best at hspec hbest
  have hnum := hspec.managedStart
  have hend := hspec.managedEnd
  have hpages := hspec.managedPages
  have hge := hspec.start_ge
  have hdvd := hspec.start_dvd
  have hlt := best.2.isLt
  have hpos : 0 < best.1.toNat := by
    rcases hbest with hzero | ⟨-, hmib, -⟩
    · have := hspec.best_lt
      rw [hzero] at this
      exact absurd this (by decide)
    · rw [BitVec.le_def] at hmib
      exact lt_of_lt_of_le (by decide) hmib
  refine ⟨⟨l.regionStart, l.managedStart, l.managedPages, ?_, ?_, by omega⟩, rfl, rfl, rfl, ?_⟩
  · rw [U32.pageAligned_iff]
    omega
  · intro hzero
    rw [hzero] at hnum
    have : (0#32).toNat = 0 := rfl
    omega
  · unfold pmmBuddyInit buddyInitArea
    rw [h]

end Microkernel.Pmm
