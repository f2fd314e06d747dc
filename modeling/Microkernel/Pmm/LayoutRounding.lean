import Microkernel.Pmm.BitmapLayout

/-! # The roundings of the region layout

`pmm_compute_region_layout` on any 32-bit ranges. It rounds up, adds a page and adds the size of the bitmap with
32-bit operations; the sums that it forms are recorded as numbers, so that one can say when none of them
wraps.

* **`LayoutAttempt`** — one attempt, with every sum in it.
* **`LaysOutRight`** — the layout is as promised, and no rounding and no addition on the way wraps.
* **`laysOutRight_iff`** — exactly when this is so, over all ranges: the first start is low enough for a
  page to fit in front of the last one, and so is the end of the information if the bitmap placed at the
  first start meets it.
-/

namespace Microkernel.Pmm

/-! ### The layout of any range -/

/-- What an attempt computes from the bounds: the new ones and the sizes. -/
structure LayoutAttempt where
  start : U32
  stop : U32
  pages : U32
  bytes : U32
  storage : U32
  bitmapPages : U32

/-- The start of an attempt behind the kernel image, if the image meets the range. -/
def pushedStart (kernel : U32 × U32) (start stop : U32) : U32 :=
  if rangesOverlap start stop kernel.1 kernel.2 then
    if start < kernel.2 ∧ stop > kernel.1 then u32Max start (alignUp kernel.2 pageSize)
    else start
  else start

/-- The numbers of an attempt. -/
def layoutAttempt (kernel : U32 × U32) (start stop : U32) : LayoutAttempt :=
  let start := alignUp (pushedStart kernel start stop) pageSize
  let stop := alignDown stop pageSize
  let pages := (stop - start) / pageSize
  let bytes := (pages + 7#32) / 8#32
  let storage := alignUp bytes pageSize
  ⟨start, stop, pages, bytes, storage, storage / pageSize⟩

/-- The storage of the bitmap meets the Multiboot2 information. -/
def LayoutAttempt.MeetsInfo (a : LayoutAttempt) (info : U32 × U32) : Prop :=
  info.2 > info.1 ∧ rangesOverlap a.start (a.start + a.storage) info.1 info.2

instance (a : LayoutAttempt) (info : U32 × U32) : Decidable (a.MeetsInfo info) :=
  inferInstanceAs (Decidable (_ ∧ _))

/-- The loop of `pmm_compute_region_layout` for `n` attempts, with any ranges. -/
def rangeLayoutAttempts (kernel info usable : U32 × U32) : ℕ → U32 → U32 → Option RegionLayout
  | 0, _, _ => none
  | n + 1, start, stop =>
      let a := layoutAttempt kernel start stop
      if a.stop ≤ a.start + pageSize then none
      else if a.pages < 8#32 then none
      else if a.bitmapPages ≥ a.pages then none
      else if a.MeetsInfo info then
        rangeLayoutAttempts kernel info usable n (alignUp info.2 pageSize) a.stop
      else some ⟨usable.1, usable.2, a.start, a.stop, a.pages, a.bytes, a.storage, a.bitmapPages⟩

/-- `pmm_compute_region_layout(…)` with any ranges. -/
def pmmComputeRangeLayout (kernel info usable : U32 × U32) : Option RegionLayout :=
  if usable.2 ≤ usable.1 then none
  else rangeLayoutAttempts kernel info usable 4 usable.1 usable.2

/-- The two blocks of a boot are such ranges. -/
theorem pmmComputeRegionLayout_eq (kernel info : BootBlock) (usable : U32 × U32) :
    pmmComputeRegionLayout kernel info usable =
      pmmComputeRangeLayout (kernel.start, kernel.stop) (info.start, info.stop) usable := by
  have hloop : ∀ n start stop, layoutAttempts usable kernel info n start stop =
      rangeLayoutAttempts (kernel.start, kernel.stop) (info.start, info.stop) usable n start stop := by
    intro n
    induction n with
    | zero => exact fun _ _ => rfl
    | succ n ih =>
      intro start stop
      rw [layoutAttempts, rangeLayoutAttempts]
      simp only [ih]
      rfl
  unfold pmmComputeRegionLayout pmmComputeRangeLayout
  rw [hloop]

/-- The sums that the roundings and additions of the loop form, before they are reduced to 32 bits. Rounding
`v` up to a page forms `v + 4095`. -/
def layoutSums (kernel info : U32 × U32) : ℕ → U32 → U32 → List ℕ
  | 0, _, _ => []
  | n + 1, start, stop =>
      let a := layoutAttempt kernel start stop
      (if rangesOverlap start stop kernel.1 kernel.2 then [kernel.2.toNat + 4095] else []) ++
        [(pushedStart kernel start stop).toNat + 4095, a.start.toNat + 4096] ++
        if a.stop ≤ a.start + pageSize ∨ a.pages < 8#32 then []
        else [a.pages.toNat + 7, a.bytes.toNat + 4095] ++
          if a.bitmapPages ≥ a.pages then []
          else (a.start.toNat + a.storage.toNat) ::
            if a.MeetsInfo info then
              (info.2.toNat + 4095) :: layoutSums kernel info n (alignUp info.2 pageSize) a.stop
            else []

/-! ### What is promised -/

/-- What the layout of a range should be: whole pages within the range and clear of the kernel image, with a
bitmap in front that has a bit for every page, leaves a page and is clear of the information. -/
structure RegionLayout.Right (l : RegionLayout) (usable kernel info : U32 × U32) : Prop where
  start_ge : usable.1.toNat ≤ l.managedStart.toNat
  start_lt : l.managedStart.toNat < l.managedStop.toNat
  stop_le : l.managedStop.toNat ≤ usable.2.toNat
  start_dvd : 4096 ∣ l.managedStart.toNat
  stop_dvd : 4096 ∣ l.managedStop.toNat
  pages : l.pages.toNat * 4096 = l.managedStop.toNat - l.managedStart.toNat
  bits : l.pages.toNat ≤ l.bitmapBytes.toNat * 8
  bytes_le : l.bitmapBytes.toNat ≤ l.bitmapStorageBytes.toNat
  page_left : l.bitmapStorageBytes.toNat + 4096 ≤ l.managedStop.toNat - l.managedStart.toNat
  kernel : ∀ a, ¬ (l.managedStart.toNat ≤ a ∧ a < l.managedStop.toNat ∧
    kernel.1.toNat ≤ a ∧ a < kernel.2.toNat)
  info : ∀ a, ¬ (l.managedStart.toNat ≤ a ∧ a < l.managedStart.toNat + l.bitmapStorageBytes.toNat ∧
    info.1.toNat ≤ a ∧ a < info.2.toNat)

/-- A layout that is found is right, and no rounding or addition on the way wraps. -/
def LaysOutRight (kernel info usable : U32 × U32) : Prop :=
  (∀ l, pmmComputeRangeLayout kernel info usable = some l → l.Right usable kernel info) ∧
    ∀ x ∈ layoutSums kernel info 4 usable.1 usable.2, x < 2 ^ 32

/-! ### When it holds -/

/-- A number rounded up to a page. -/
def roundUp (x : ℕ) : ℕ := (x + 4095) / 4096 * 4096

/-- Where the layout of a range begins: at the end of the kernel image if that meets the range, else at the
start of the range. -/
def firstStart (kernel : U32 × U32) (start stop : U32) : U32 :=
  if rangesOverlap start stop kernel.1 kernel.2 then kernel.2 else start

/-- The pages between an address and an end. -/
def pagesBetween (start stop : ℕ) : ℕ := (stop / 4096 * 4096 - roundUp start) / 4096

/-- From an address on there are pages for a region, and the storage of its bitmap meets the information. -/
def FirstBitmapMeets (info : U32 × U32) (start stop : ℕ) : Prop :=
  8 ≤ pagesBetween start stop ∧ max (roundUp start) info.1.toNat <
    min (roundUp start + roundUp ((pagesBetween start stop + 7) / 8)) info.2.toNat

/-- Rounding up does not go down. -/
theorem le_roundUp (x : ℕ) : x ≤ roundUp x := by
  unfold roundUp
  omega

/-- The information that a bitmap meets ends behind the start of the bitmap. -/
theorem FirstBitmapMeets.lt {info : U32 × U32} {start stop : ℕ} (h : FirstBitmapMeets info start stop) :
    roundUp start < info.2.toNat :=
  (le_max_left _ _).trans_lt (h.2.trans_le (min_le_right _ _))

section Attempt
variable {kernel info : U32 × U32} {start stop : U32}

/-- An attempt ends where the range does, rounded down to a page. -/
theorem layoutAttempt_stop (kernel : U32 × U32) (start stop : U32) :
    (layoutAttempt kernel start stop).stop.toNat = stop.toNat / 4096 * 4096 :=
  alignDown_toNat stop

/-- Where an attempt begins behind the kernel image, when that does not wrap. -/
theorem pushedStart_of_overlap (h : rangesOverlap start stop kernel.1 kernel.2 = true)
    (hup : kernel.2.toNat + 4095 < 2 ^ 32) :
    (pushedStart kernel start stop).toNat = roundUp kernel.2.toNat := by
  have hmax := (rangesOverlap_iff ..).mp h
  have hboth : start < kernel.2 ∧ stop > kernel.1 := by bv_omega
  rw [pushedStart, if_pos h, if_pos hboth, u32Max_toNat, alignUp_toNat hup]
  unfold roundUp
  omega

/-- An attempt begins at the first start, rounded up, when that does not wrap. -/
theorem layoutAttempt_start (h : (firstStart kernel start stop).toNat ≤ 0xFFFFE000) :
    (pushedStart kernel start stop).toNat + 4095 < 2 ^ 32 ∧
      (layoutAttempt kernel start stop).start.toNat = roundUp (firstStart kernel start stop).toNat := by
  have hstart : (layoutAttempt kernel start stop).start =
    alignUp (pushedStart kernel start stop) pageSize := rfl
  unfold firstStart at h ⊢
  by_cases hover : rangesOverlap start stop kernel.1 kernel.2 = true
  · rw [if_pos hover] at h ⊢
    -- the start is already the end of a page
    have hpushed := pushedStart_of_overlap hover (by omega)
    rw [hstart, hpushed]
    unfold roundUp at hpushed ⊢
    refine ⟨by omega, ?_⟩
    rw [alignUp_toNat (by omega), hpushed]
    omega
  · rw [if_neg hover] at h ⊢
    -- the range keeps its start
    rw [hstart, pushedStart, if_neg hover]
    exact ⟨by omega, alignUp_toNat (by omega)⟩

/-- **The first sums of an attempt** do not wrap exactly when it begins low enough for a page to fit in front
of the last one. -/
theorem layoutAttempt_start_iff (kernel : U32 × U32) (start stop : U32) :
    ((rangesOverlap start stop kernel.1 kernel.2 = true → kernel.2.toNat + 4095 < 2 ^ 32) ∧
      (pushedStart kernel start stop).toNat + 4095 < 2 ^ 32 ∧
      (layoutAttempt kernel start stop).start.toNat + 4096 < 2 ^ 32) ↔
    (firstStart kernel start stop).toNat ≤ 0xFFFFE000 := by
  constructor
  · rintro ⟨hkernel, hpushed, hstart⟩
    rw [show (layoutAttempt kernel start stop).start = alignUp (pushedStart kernel start stop) pageSize from
      rfl, alignUp_toNat hpushed] at hstart
    unfold firstStart
    by_cases hover : rangesOverlap start stop kernel.1 kernel.2 = true
    · rw [pushedStart_of_overlap hover (hkernel hover)] at hstart
      rw [if_pos hover]
      unfold roundUp at hstart
      omega
    · rw [pushedStart, if_neg hover] at hstart
      rw [if_neg hover]
      omega
  · intro h
    obtain ⟨hpushed, hstart⟩ := layoutAttempt_start h
    refine ⟨fun hover => ?_, hpushed, ?_⟩
    · rw [firstStart, if_pos hover] at h
      omega
    · rw [hstart]
      unfold roundUp
      omega

/-- The check for an empty range. -/
theorem layoutAttempt_empty_iff (h : (firstStart kernel start stop).toNat ≤ 0xFFFFE000) :
    (layoutAttempt kernel start stop).stop ≤ (layoutAttempt kernel start stop).start + pageSize ↔
      stop.toNat / 4096 * 4096 ≤ roundUp (firstStart kernel start stop).toNat + 4096 := by
  have hstart := (layoutAttempt_start h).2
  have hstop := layoutAttempt_stop kernel start stop
  have hadd : ((layoutAttempt kernel start stop).start + pageSize).toNat =
      roundUp (firstStart kernel start stop).toNat + 4096 := by
    rw [BitVec.toNat_add, hstart, show pageSize.toNat = 4096 from rfl]
    unfold roundUp
    exact Nat.mod_eq_of_lt (by omega)
  rw [BitVec.le_def, hadd, hstop]

/-- The number of pages of a range that is not empty. -/
theorem layoutAttempt_pages (h : (firstStart kernel start stop).toNat ≤ 0xFFFFE000)
    (hlt : roundUp (firstStart kernel start stop).toNat + 4096 < stop.toNat / 4096 * 4096) :
    (layoutAttempt kernel start stop).pages.toNat =
        pagesBetween (firstStart kernel start stop).toNat stop.toNat ∧
      (layoutAttempt kernel start stop).start.toNat + (layoutAttempt kernel start stop).pages.toNat * 4096 =
        (layoutAttempt kernel start stop).stop.toNat := by
  have hstart := (layoutAttempt_start h).2
  have hstop := layoutAttempt_stop kernel start stop
  have hdvd : 4096 ∣ (layoutAttempt kernel start stop).start.toNat := by
    rw [hstart]
    exact Nat.dvd_mul_left ..
  have hdvd' : 4096 ∣ (layoutAttempt kernel start stop).stop.toNat := by
    rw [hstop]
    exact Nat.dvd_mul_left ..
  obtain ⟨pages, hpages, hpagesn⟩ := attempt_pages hdvd hdvd' (by rwa [hstart, hstop])
  rw [show (layoutAttempt kernel start stop).pages = pages from hpages]
  refine ⟨?_, hpagesn⟩
  rw [hstart, hstop] at hpagesn
  unfold pagesBetween
  omega

/-- The checks for an empty range and for too few pages. -/
theorem layoutAttempt_few_iff (h : (firstStart kernel start stop).toNat ≤ 0xFFFFE000) :
    ((layoutAttempt kernel start stop).stop ≤ (layoutAttempt kernel start stop).start + pageSize ∨
      (layoutAttempt kernel start stop).pages < 8#32) ↔
    pagesBetween (firstStart kernel start stop).toNat stop.toNat < 8 := by
  rw [layoutAttempt_empty_iff h]
  by_cases hempty : stop.toNat / 4096 * 4096 ≤ roundUp (firstStart kernel start stop).toNat + 4096
  · refine iff_of_true (.inl hempty) ?_
    unfold pagesBetween
    omega
  · rw [← (layoutAttempt_pages h (not_le.mp hempty)).1, or_iff_right hempty, BitVec.lt_def]
    rfl

/-- **The numbers of an attempt** that goes on. -/
structure LayoutAttempt.Fits (a : LayoutAttempt) (first limit : ℕ) : Prop where
  start : a.start.toNat = roundUp first
  stop : a.stop.toNat = limit / 4096 * 4096
  pages : a.pages.toNat = pagesBetween first limit
  pages_ge : 8 ≤ a.pages.toNat
  pages_mul : a.start.toNat + a.pages.toNat * 4096 = a.stop.toNat
  bytes : a.bytes.toNat = (a.pages.toNat + 7) / 8
  storage : a.storage.toNat = roundUp a.bytes.toNat
  bitmapPages : a.storage.toNat = a.bitmapPages.toNat * 4096
  bitmapPages_lt : a.bitmapPages.toNat < a.pages.toNat

/-- An attempt that has room for eight pages fits between its start and its stop. -/
theorem layoutAttempt_fits (h : (firstStart kernel start stop).toNat ≤ 0xFFFFE000)
    (hpages : 8 ≤ pagesBetween (firstStart kernel start stop).toNat stop.toNat) :
    (layoutAttempt kernel start stop).Fits (firstStart kernel start stop).toNat stop.toNat := by
  have hlt : roundUp (firstStart kernel start stop).toNat + 4096 < stop.toNat / 4096 * 4096 := by
    unfold pagesBetween at hpages
    omega
  have hstart := (layoutAttempt_start h).2
  have hstop := layoutAttempt_stop kernel start stop
  obtain ⟨hpagesn, hmul⟩ := layoutAttempt_pages h hlt
  rw [← hpagesn] at hpages
  have hstop32 := stop.isLt
  -- fewer pages than the address space has, so no number wraps
  have hfew : (layoutAttempt kernel start stop).pages.toNat < 2 ^ 20 := by omega
  obtain ⟨bytes, storage, bitmapPages, hbytes, hstorage, hbitmap, hbytesn, hstoragen, hroom, -⟩ :=
    bitmap_numbers hfew
  have hbytes' : (layoutAttempt kernel start stop).bytes = bytes := hbytes
  have hstorage' : (layoutAttempt kernel start stop).storage = storage := by
    rw [← hstorage, ← hbytes']
    rfl
  have hbitmap' : (layoutAttempt kernel start stop).bitmapPages = bitmapPages := by
    rw [← hbitmap, ← hstorage']
    rfl
  have hround : storage.toNat = roundUp bytes.toNat := by
    rw [← hstorage]
    exact alignUp_toNat (by omega)
  refine ⟨hstart, hstop, hpagesn, hpages, hmul, ?_, ?_, ?_, ?_⟩
  · rw [hbytes', hbytesn]
  · rw [hbytes', hstorage', hround]
  · rw [hstorage', hbitmap', hstoragen]
  · rw [hbitmap']
    unfold roundUp at hround
    omega

/-- The bitmap of an attempt that goes on leaves a page. -/
theorem LayoutAttempt.Fits.leaves {a : LayoutAttempt} {first limit : ℕ} (ha : a.Fits first limit) :
    ¬ a.bitmapPages ≥ a.pages := BitVec.not_le.mpr ha.bitmapPages_lt

/-- An attempt that goes on meets the information with the storage of its bitmap. -/
theorem LayoutAttempt.Fits.meetsInfo_iff {a : LayoutAttempt} {first limit : ℕ} (ha : a.Fits first limit)
    (info : U32 × U32) : a.MeetsInfo info ↔ FirstBitmapMeets info first limit := by
  have hstop32 := a.stop.isLt
  have hlt := ha.bitmapPages_lt
  have hmul := ha.pages_mul
  have hbitmap := ha.bitmapPages
  have hsum : (a.start + a.storage).toNat = a.start.toNat + a.storage.toNat := by
    rw [BitVec.toNat_add]
    exact Nat.mod_eq_of_lt (by omega)
  unfold LayoutAttempt.MeetsInfo FirstBitmapMeets
  rw [rangesOverlap_iff, hsum, ← ha.pages, ← ha.bytes, ← ha.storage, ← ha.start]
  constructor
  · rintro ⟨-, h⟩
    exact ⟨ha.pages_ge, h⟩
  · rintro ⟨-, h⟩
    exact ⟨by bv_omega, h⟩

/-- The sums of an attempt that goes on do not wrap, but those behind the information may. -/
theorem LayoutAttempt.Fits.sums_lt {a : LayoutAttempt} {first limit : ℕ} (ha : a.Fits first limit) :
    a.pages.toNat + 7 < 2 ^ 32 ∧ a.bytes.toNat + 4095 < 2 ^ 32 ∧
      a.start.toNat + a.storage.toNat < 2 ^ 32 := by
  have hstop32 := a.stop.isLt
  have hmul := ha.pages_mul
  have hbytes := ha.bytes
  have hbitmap := ha.bitmapPages
  have hlt := ha.bitmapPages_lt
  omega

/-- **The sums of an attempt and of those after it.** -/
theorem layoutSums_succ_iff (n : ℕ) :
    (∀ x ∈ layoutSums kernel info (n + 1) start stop, x < 2 ^ 32) ↔
      (firstStart kernel start stop).toNat ≤ 0xFFFFE000 ∧
        (FirstBitmapMeets info (firstStart kernel start stop).toNat stop.toNat →
          info.2.toNat + 4095 < 2 ^ 32 ∧ ∀ x ∈ layoutSums kernel info n (alignUp info.2 pageSize)
            (layoutAttempt kernel start stop).stop, x < 2 ^ 32) := by
  have hfirst : (∀ x ∈ (if rangesOverlap start stop kernel.1 kernel.2 then [kernel.2.toNat + 4095] else []) ++
      [(pushedStart kernel start stop).toNat + 4095, (layoutAttempt kernel start stop).start.toNat + 4096],
      x < 2 ^ 32) ↔ (firstStart kernel start stop).toNat ≤ 0xFFFFE000 := by
    rw [← layoutAttempt_start_iff kernel start stop, List.forall_mem_append]
    refine and_congr ?_ (by simp)
    split <;> simp_all
  rw [layoutSums, List.forall_mem_append, hfirst]
  refine and_congr_right fun h => ?_
  have hfew := layoutAttempt_few_iff h
  by_cases hpages : pagesBetween (firstStart kernel start stop).toNat stop.toNat < 8
  · rw [if_pos (hfew.mpr hpages)]
    exact iff_of_true (fun x hx => absurd hx List.not_mem_nil) fun hmeets => absurd hmeets.1 (not_le.mpr hpages)
  · have ha := layoutAttempt_fits h (not_lt.mp hpages)
    obtain ⟨hpages7, hbytes, hstorage⟩ := ha.sums_lt
    have hpair : ∀ x ∈ [(layoutAttempt kernel start stop).pages.toNat + 7,
        (layoutAttempt kernel start stop).bytes.toNat + 4095], x < 2 ^ 32 :=
      List.forall_mem_cons.mpr ⟨hpages7, List.forall_mem_singleton.mpr hbytes⟩
    rw [if_neg (mt hfew.mp hpages), if_neg ha.leaves, List.forall_mem_append, and_iff_right hpair,
      List.forall_mem_cons, and_iff_right hstorage, ← ha.meetsInfo_iff]
    by_cases hmeets : (layoutAttempt kernel start stop).MeetsInfo info
    · rw [if_pos hmeets, List.forall_mem_cons]
      exact ⟨fun h _ => h, fun h => h hmeets⟩
    · rw [if_neg hmeets]
      exact iff_of_true (fun x hx => absurd hx List.not_mem_nil) fun h => absurd h hmeets

/-- **The result of an attempt** whose first sums do not wrap. -/
theorem rangeLayoutAttempts_succ {usable : U32 × U32} {n : ℕ} {l : RegionLayout}
    (h : (firstStart kernel start stop).toNat ≤ 0xFFFFE000)
    (hl : rangeLayoutAttempts kernel info usable (n + 1) start stop = some l) :
    (FirstBitmapMeets info (firstStart kernel start stop).toNat stop.toNat ∧
      rangeLayoutAttempts kernel info usable n (alignUp info.2 pageSize)
        (layoutAttempt kernel start stop).stop = some l) ∨
    (¬ FirstBitmapMeets info (firstStart kernel start stop).toNat stop.toNat ∧
      ∃ a : LayoutAttempt, a.Fits (firstStart kernel start stop).toNat stop.toNat ∧
        l = ⟨usable.1, usable.2, a.start, a.stop, a.pages, a.bytes, a.storage, a.bitmapPages⟩) := by
  have hfew := layoutAttempt_few_iff h
  rw [rangeLayoutAttempts] at hl
  by_cases hpages : pagesBetween (firstStart kernel start stop).toNat stop.toNat < 8
  · rcases hfew.mpr hpages with hempty | hfew
    · rw [if_pos hempty] at hl
      cases hl
    · rw [if_pos hfew] at hl
      split at hl <;> cases hl
  · have ha := layoutAttempt_fits h (not_lt.mp hpages)
    rw [← hfew, not_or] at hpages
    rw [if_neg hpages.1, if_neg hpages.2, if_neg ha.leaves] at hl
    by_cases hmeets : (layoutAttempt kernel start stop).MeetsInfo info
    · rw [if_pos hmeets] at hl
      exact .inl ⟨(ha.meetsInfo_iff info).mp hmeets, hl⟩
    · rw [if_neg hmeets] at hl
      exact .inr ⟨mt (ha.meetsInfo_iff info).mpr hmeets, _, ha, (Option.some.inj hl).symm⟩

/-- The first start is not in front of the range, and the kernel image is not behind it. -/
theorem firstStart_clear (kernel : U32 × U32) (start stop : U32) :
    start.toNat ≤ (firstStart kernel start stop).toNat ∧
      ¬ max (roundUp (firstStart kernel start stop).toNat) kernel.1.toNat < min stop.toNat kernel.2.toNat := by
  have hover := rangesOverlap_iff start stop kernel.1 kernel.2
  unfold firstStart roundUp
  split
  · rename_i h
    have hmax := hover.mp h
    omega
  · rename_i h
    have hmax := mt hover.mpr h
    omega

/-- **The attempt behind the information** has nothing in its way: neither the kernel image nor the
information meets the range any more. -/
theorem second_attempt (hmeets : FirstBitmapMeets info (firstStart kernel start stop).toNat stop.toNat)
    (hinfo : info.2.toNat + 4095 < 2 ^ 32) {start' stop' : U32} (hstart' : alignUp info.2 pageSize = start')
    (hstop' : (layoutAttempt kernel start stop).stop = stop') :
    start'.toNat = roundUp info.2.toNat ∧ firstStart kernel start' stop' = start' ∧
      ¬ FirstBitmapMeets info start'.toNat stop'.toNat := by
  have hstart : start'.toNat = roundUp info.2.toNat := by
    rw [← hstart']
    exact alignUp_toNat hinfo
  have hstop : stop'.toNat = stop.toNat / 4096 * 4096 := by
    rw [← hstop']
    exact layoutAttempt_stop ..
  -- it begins behind the first attempt
  have hinfo_le : info.2.toNat ≤ start'.toNat := hstart.symm ▸ le_roundUp _
  have hfirst : (firstStart kernel start stop).toNat < start'.toNat :=
    (le_roundUp _).trans_lt (hmeets.lt.trans_le hinfo_le)
  refine ⟨hstart, if_neg fun hover => ?_, fun h => ?_⟩
  · have hover' := (rangesOverlap_iff ..).mp hover
    unfold firstStart at hfirst
    split at hfirst
    · omega
    · rename_i hno
      rw [rangesOverlap_iff] at hno
      omega
  · exact absurd (h.lt.trans_le (hinfo_le.trans (le_roundUp _))) (lt_irrefl _)

/-- When the information ends low enough, so does what the attempt behind it begins with, and it is the last
one. -/
theorem second_attempt_low (hmeets : FirstBitmapMeets info (firstStart kernel start stop).toNat stop.toNat)
    (hlow : info.2.toNat ≤ 0xFFFFE000) {start' stop' : U32} (hstart' : alignUp info.2 pageSize = start')
    (hstop' : (layoutAttempt kernel start stop).stop = stop') :
    (firstStart kernel start' stop').toNat ≤ 0xFFFFE000 ∧
      ¬ FirstBitmapMeets info (firstStart kernel start' stop').toNat stop'.toNat ∧
      (firstStart kernel start stop).toNat ≤ start'.toNat := by
  obtain ⟨hstart, hagain, hclear⟩ := second_attempt hmeets (by omega) hstart' hstop'
  rw [hagain, hstart]
  refine ⟨?_, hstart ▸ hclear, ?_⟩
  · unfold roundUp
    omega
  · exact (le_roundUp _).trans (hmeets.lt.le.trans (le_roundUp _))

end Attempt

/-! ### The whole loop -/

/-- An attempt that ends the loop gives a right layout, if it begins behind the kernel image and in the
range. -/
theorem LayoutAttempt.Fits.right {a : LayoutAttempt} {first limit : ℕ} {kernel info usable : U32 × U32}
    (ha : a.Fits first limit) (hmeets : ¬ FirstBitmapMeets info first limit) (hstart : usable.1.toNat ≤ first)
    (hstop : limit ≤ usable.2.toNat)
    (hkernel : ¬ max (roundUp first) kernel.1.toNat < min limit kernel.2.toNat) :
    RegionLayout.Right ⟨usable.1, usable.2, a.start, a.stop, a.pages, a.bytes, a.storage, a.bitmapPages⟩
      usable kernel info := by
  obtain ⟨hs, he, hpages, hge, hmul, hbytes, hstorage, hbitmap, hlt⟩ := ha
  unfold FirstBitmapMeets at hmeets
  rw [← hpages, ← hbytes, ← hstorage, ← hs] at hmeets
  constructor <;> dsimp only
  · unfold roundUp at hs
    omega
  · omega
  · omega
  · rw [hs]
    exact Nat.dvd_mul_left ..
  · rw [he]
    exact Nat.dvd_mul_left ..
  · omega
  · omega
  · unfold roundUp at hstorage
    omega
  · omega
  · intro x hx
    omega
  · intro x hx
    omega

/-- **When the layout is right**: for all ranges, what is found is as promised and no rounding or addition on
the way wraps if and only if the first start is at most `0xFFFFE000` and, when the bitmap that is placed there
meets the information, the end of the information is so, too. -/
theorem laysOutRight_iff (kernel info usable : U32 × U32) (hlt : usable.1 < usable.2) :
    LaysOutRight kernel info usable ↔
      (firstStart kernel usable.1 usable.2).toNat ≤ 0xFFFFE000 ∧
        (FirstBitmapMeets info (firstStart kernel usable.1 usable.2).toNat usable.2.toNat →
          info.2.toNat ≤ 0xFFFFE000) := by
  have hstop := layoutAttempt_stop kernel usable.1 usable.2
  constructor
  · rintro ⟨-, hsums⟩
    obtain ⟨hfirst, hmore⟩ := (layoutSums_succ_iff 3).mp hsums
    refine ⟨hfirst, fun hmeets => ?_⟩
    obtain ⟨hinfo, hsums⟩ := hmore hmeets
    obtain ⟨hstart, hagain, -⟩ := second_attempt hmeets hinfo rfl rfl
    have hsecond := ((layoutSums_succ_iff 2).mp hsums).1
    rw [hagain, hstart] at hsecond
    unfold roundUp at hsecond
    omega
  · rintro ⟨hfirst, hinfo⟩
    obtain ⟨hge, hclear⟩ := firstStart_clear kernel usable.1 usable.2
    refine ⟨fun l hl => ?_, (layoutSums_succ_iff 3).mpr ⟨hfirst, fun hmeets => ?_⟩⟩
    · rw [pmmComputeRangeLayout, if_neg (BitVec.not_le.mpr hlt)] at hl
      rcases rangeLayoutAttempts_succ hfirst hl with ⟨hmeets, hl⟩ | ⟨hmeets, a, ha, rfl⟩
      · obtain ⟨hsecond, hclear', hbehind⟩ := second_attempt_low hmeets (hinfo hmeets) rfl rfl
        rcases rangeLayoutAttempts_succ hsecond hl with ⟨hmeets', -⟩ | ⟨hmeets', a, ha, rfl⟩
        · exact absurd hmeets' hclear'
        · obtain ⟨hge', hkernel⟩ := firstStart_clear kernel (alignUp info.2 pageSize)
            (layoutAttempt kernel usable.1 usable.2).stop
          exact ha.right hmeets' (hge.trans (hbehind.trans hge')) (by omega) hkernel
      · exact ha.right hmeets hge le_rfl hclear
    · have hlow := hinfo hmeets
      obtain ⟨hsecond, hclear', -⟩ := second_attempt_low hmeets hlow rfl rfl
      exact ⟨by omega, (layoutSums_succ_iff 2).mpr ⟨hsecond, fun hmeets' => absurd hmeets' hclear'⟩⟩

/-- A range in the second mebibyte with the kernel image in it. -/
theorem laysOutRight_iff_low : LaysOutRight (0x100000#32, 0x120000#32) (0x130000#32, 0x131000#32)
    (0x100000#32, 0x200000#32) :=
  (laysOutRight_iff (0x100000#32, 0x120000#32) (0x130000#32, 0x131000#32) (0x100000#32, 0x200000#32)
    (by decide)).mpr ⟨by decide, fun _ => by decide⟩

/-- A range that begins in the last page of the address space: rounding its start up gives 0, and a layout of
the whole address space is found. -/
theorem layout_wraps : pmmComputeRegionLayout lowKernel lowInfo (0xFFFFF800#32, 0xFFFFFFFF#32) =
    some ⟨0xFFFFF800#32, 0xFFFFFFFF#32, 0#32, 0xFFFFF000#32, 0xFFFFF#32, 0x20000#32, 0x20000#32, 32#32⟩ ∧
    ¬ LaysOutRight (0x100000#32, 0x200000#32) (0x200000#32, 0x201000#32)
      (0xFFFFF800#32, 0xFFFFFFFF#32) := by
  have hlayout : pmmComputeRangeLayout (0x100000#32, 0x200000#32) (0x200000#32, 0x201000#32)
      (0xFFFFF800#32, 0xFFFFFFFF#32) = some ⟨0xFFFFF800#32, 0xFFFFFFFF#32, 0#32, 0xFFFFF000#32,
        0xFFFFF#32, 0x20000#32, 0x20000#32, 32#32⟩ := rfl
  exact ⟨(pmmComputeRegionLayout_eq ..).trans hlayout, fun h => absurd (h.1 _ hlayout).start_ge (by decide)⟩

end Microkernel.Pmm
