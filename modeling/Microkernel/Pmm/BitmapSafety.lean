import Microkernel.Pmm.BitmapInit

/-! # Safety of the bitmap initialisation

Where the regions lie after `pmm_bitmap_init`: each inside one usable entry, apart from each other, with
the bitmap and all free pages clear of the kernel image and the Multiboot2 information. This fails for
exactly one kind of entry, in the page before the last of the address space, where the layout wraps
around.

* **`BitmapPmm.Safe`** — what is safe, byte by byte.
* **`pmmBitmapInit_regions`** — a region for every layout, and which of its pages stay free.
* **`KeepsOffLastPages`** — no entry in those pages gets a region; then the allocator is safe
  (`KeepsOffLastPages.safe`).

A bitmap is taken to be where its region begins. `Pmm/BitmapMemory` looks at where its pointer leads.
-/

namespace Microkernel.Pmm

open BitmapRegion (SameRegion)

/-! ### What is safe -/

/-- The addresses of a block. -/
def BootBlock.Has (b : BootBlock) (x : ℕ) : Prop := b.start.toNat ≤ x ∧ x < b.stop.toNat

namespace BitmapRegion

/-- The address is in page `i` of the region. -/
def InPage (r : BitmapRegion) (i x : ℕ) : Prop :=
  (r.indexToAddr i).toNat ≤ x ∧ x < (r.indexToAddr i).toNat + 4096

/-- The address is in a managed page. -/
def Manages (r : BitmapRegion) (x : ℕ) : Prop := ∃ i < r.pages.toNat, r.InPage i x

/-- The address is in the storage of the bitmap. -/
def Stores (r : BitmapRegion) (x : ℕ) : Prop :=
  ∃ k < r.bitmapStorageBytes.toNat, x = (r.base + BitVec.ofNat 32 k).toNat

end BitmapRegion

/-- **The initialised allocator is safe.** -/
structure BitmapPmm.Safe (p : BitmapPmm) (entries : List Mb2MmapEntry) (kernel info : BootBlock) :
    Prop where
  /-- Every managed page lies in one usable entry, at 1 MiB or above. -/
  usable : ∀ r ∈ p.regions, ∀ i < r.pages.toNat,
    ∃ e ∈ entries, e.Usable ∧ ∀ x, r.InPage i x → 2 ^ 20 ≤ x ∧ e.Has x
  /-- Different regions have no managed address in common. -/
  disjoint : p.regions.Pairwise fun r r' => ∀ x, r.Manages x → ¬ r'.Manages x
  /-- No bitmap meets another region. -/
  storage_disjoint : p.regions.Pairwise fun r r' => ∀ x,
    (r.Stores x → ¬ r'.Manages x ∧ ¬ r'.Stores x) ∧ (r'.Stores x → ¬ r.Manages x)
  /-- No bitmap meets the kernel image or the Multiboot2 information. -/
  storage : ∀ r ∈ p.regions, ∀ x, r.Stores x → ¬ kernel.Has x ∧ ¬ info.Has x
  /-- A free page avoids both blocks and every bitmap. -/
  free : ∀ r ∈ p.regions, ∀ i < r.pages.toNat, r.bitmapTest i = false → ∀ x, r.InPage i x →
    ¬ kernel.Has x ∧ ¬ info.Has x ∧ ∀ r' ∈ p.regions, ¬ r'.Stores x

/-- Usable memory starts at the last page of the address space or below. -/
def StartsInRange (entries : List Mb2MmapEntry) : Prop :=
  ∀ e ∈ entries, e.Usable → e.addr.toNat ≤ 0xFFFFF000

/-- No entry in the last pages of the address space gets a region: there is none, or 32 entries in front
of it have a layout. -/
def KeepsOffLastPages (entries : List Mb2MmapEntry) (kernel info : BootBlock) : Prop :=
  ∀ pre e post, entries = pre ++ e :: post → e.InLastPages →
    pmmMaxRegions ≤ (pre.filterMap (entryLayout kernel info)).length

/-! ### The layouts -/

section Layouts

variable {entries : List Mb2MmapEntry} {kernel info : BootBlock}

/-- Every layout lies in the memory of an entry. -/
theorem KeepsOffLastPages.layout (h : KeepsOffLastPages entries kernel info)
    (hrange : StartsInRange entries) {l : RegionLayout} (hl : l ∈ bitmapLayouts entries kernel info) :
    ∃ e ∈ entries, ∃ usable, Clips e usable ∧ l.Spec usable kernel info := by
  obtain ⟨pre, e, post, hentries, hlayout, hlt⟩ := mem_take_filterMap.mp hl
  have hmem : e ∈ entries := by simp [hentries]
  rcases entryLayout_cases hlayout (hrange e hmem) with ⟨usable, hclips, hspec⟩ | ⟨hlast, -⟩
  · exact ⟨e, hmem, usable, hclips, hspec⟩
  · exact absurd hlt (Nat.not_lt.mpr (h pre e post hentries hlast))

/-- Layouts that do not wrap around lie apart. -/
theorem bitmapLayouts_pairwise (hdisjoint : DisjointUsable entries) (hrange : StartsInRange entries) :
    (bitmapLayouts entries kernel info).Pairwise fun l l' =>
      l.managedStart.toNat + l.pages.toNat * 4096 < 2 ^ 32 →
      l'.managedStart.toNat + l'.pages.toNat * 4096 < 2 ^ 32 →
      l.managedStart.toNat + l.pages.toNat * 4096 ≤ l'.managedStart.toNat ∨
        l'.managedStart.toNat + l'.pages.toNat * 4096 ≤ l.managedStart.toNat := by
  refine List.Pairwise.sublist (List.take_sublist ..) (List.pairwise_filterMap.mpr ?_)
  refine hdisjoint.imp_of_mem ?_
  intro e e' he he' hdis l hl l' hl' hfits hfits'
  have hwrapped : ∀ {u : U32 × U32} {l : RegionLayout}, l = wrappedLayout u →
      ¬ l.managedStart.toNat + l.pages.toNat * 4096 < 2 ^ 32 := by
    rintro u l rfl
    dsimp only [wrappedLayout]
    decide
  rcases entryLayout_cases hl (hrange e he) with ⟨u, hclips, hspec⟩ | ⟨-, u, hu⟩
  · rcases entryLayout_cases hl' (hrange e' he') with ⟨u', hclips', hspec'⟩ | ⟨-, u', hu'⟩
    · -- an address of both would be an address of both entries
      by_contra hover
      have hno := hdis hclips.isUsable hclips'.isUsable
        (max l.managedStart.toNat l'.managedStart.toNat)
      have h₁ := hspec.start_ge
      have h₂ := hspec.stop
      have h₃ := hspec.stop_le
      have h₄ := hclips.start_ge
      have h₅ := hclips.stop_le
      have h₁' := hspec'.start_ge
      have h₂' := hspec'.stop
      have h₃' := hspec'.stop_le
      have h₄' := hclips'.start_ge
      have h₅' := hclips'.stop_le
      have hpos := hspec.pages_ge
      have hpos' := hspec'.pages_ge
      unfold Mb2MmapEntry.Has at hno
      omega
    · exact absurd hfits' (hwrapped hu')
  · exact absurd hfits (hwrapped hu)

end Layouts

/-! ### The regions -/

/-- Where a region of the initialised allocator lies. -/
structure BitmapRegion.Placed (r : BitmapRegion) (l : RegionLayout) : Prop where
  base : r.base = l.managedStart
  pages : r.pages = l.pages
  storage : r.bitmapStorageBytes = l.bitmapStorageBytes

/-- **The initialised allocator**: a region for every layout, and of the pages of the new regions those
are free still that meet neither block. -/
theorem pmmBitmapInit_regions (memory : U32 → U8) (entries : List Mb2MmapEntry)
    (kernel info : BootBlock) :
    ∃ p, pmmBitmapInit memory entries kernel info = some p ∧ p.Sound ∧
      List.Forall₂ (fun l r => r.Placed l) (bitmapLayouts entries kernel info) p.regions ∧
      (p.Apart → ∀ ri i a, p.HasPage ri i a → p.bit ri i = some false →
        ¬ kernel.Meets a.toNat ∧ ¬ info.Meets a.toNat ∧
          ∀ l, (bitmapLayouts entries kernel info)[ri]? = some l → l.bitmapPages.toNat ≤ i) := by
  rcases pmmBitmapInit_cases memory entries kernel info with ⟨hnil, hinit⟩ | ⟨p₀, p₁, hregions, hsound, hres, hinit⟩
  · refine ⟨pmmResetState, hinit, ?_, ?_, fun _ ri i a hpage => ?_⟩
    · refine ⟨fun r hr => absurd hr List.not_mem_nil, Nat.zero_le _, rfl, rfl, ?_⟩
      exact ⟨fun hready => absurd hready Bool.false_ne_true, fun hne => absurd rfl hne⟩
    · rw [hnil]
      exact .nil
    · obtain ⟨r, hr, -⟩ := hpage
      cases hr
  · obtain ⟨hsound', hsame, -, hfree⟩ := hres.sound.selftest
    refine ⟨pmmSelftest p₁, hinit, hsound', ?_, fun hapart ri i a hpage hbit => ?_⟩
    · have hplaced : List.Forall₂ (fun l r => BitmapRegion.Placed r l) (bitmapLayouts entries kernel info)
          p₀.regions := by
        rw [hregions, List.forall₂_map_right_iff, List.forall₂_same]
        intro l hl
        obtain ⟨-, hbase, hpages, hstorage, -⟩ := (bitmapLayouts_shape hl).region memory
        exact ⟨hbase, hpages, hstorage⟩
      refine BitmapPmm.forall₂_comp (fun l r r' hr hrr => ?_) hplaced (hres.same.trans hsame).regions
      exact ⟨hrr.base.trans hr.base, hrr.pages.trans hr.pages,
        hrr.bitmapStorageBytes.trans hr.storage⟩
    · -- the page was free before the self-test
      have hapart₁ := hapart.of_same hsame.symm
      have hbit₁ := hfree hapart₁.distinct ri i hbit
      have hpage₁ := hsame.symm.hasPage hpage
      have howns := hapart₁.owns hres.sound hpage₁
      have haligned : a.PageAligned := by
        obtain ⟨r, hr, hi, rfl⟩ := hpage
        exact (hsound'.regions r (List.mem_of_getElem? hr)).toShape.indexToAddr_aligned hi
      have hnot : ¬ (kernel.Meets a.toNat ∨ info.Meets a.toNat) := by
        intro hmeets
        rw [hres.marked a haligned hmeets ri i howns] at hbit₁
        cases hbit₁
      rw [not_or] at hnot
      refine ⟨hnot.1, hnot.2, fun l hl => ?_⟩
      by_contra hlt
      have hl' := List.mem_of_getElem? hl
      obtain ⟨-, -, -, -, -, hstored⟩ := (bitmapLayouts_shape hl').region memory
      have hpages := (bitmapLayouts_shape hl').bitmapPages_lt
      have hbit₀ : p₀.bit ri i = some true := by
        rw [BitmapPmm.bit, hregions, List.getElem?_map, hl, Option.map_some, Option.map_some,
          hstored i (by omega), decide_eq_true (not_le.mp hlt)]
      rw [hres.bits ri i hbit₀] at hbit₁
      cases hbit₁

/-- Regions lie apart as their layouts do. -/
theorem apart_of_layouts {layouts : List RegionLayout} {p : BitmapPmm}
    (hfits : ∀ l ∈ layouts, l.managedStart.toNat + l.pages.toNat * 4096 < 2 ^ 32 ∧
      2 ^ 20 ≤ l.managedStart.toNat)
    (hpair : layouts.Pairwise fun l l' =>
      l.managedStart.toNat + l.pages.toNat * 4096 ≤ l'.managedStart.toNat ∨
        l'.managedStart.toNat + l'.pages.toNat * 4096 ≤ l.managedStart.toNat)
    (hplaced : List.Forall₂ (fun l r => BitmapRegion.Placed r l) layouts p.regions) : p.Apart := by
  refine ⟨fun r hr => ?_, fun r hr => ?_, ?_⟩
  · obtain ⟨l, hl, hrl⟩ := BitmapPmm.forall₂_mem hplaced.flip hr
    unfold BitmapRegion.Fits
    rw [hrl.base, hrl.pages]
    exact (hfits l hl).1
  · obtain ⟨l, hl, hrl⟩ := BitmapPmm.forall₂_mem hplaced.flip hr
    rw [hrl.base]
    exact (hfits l hl).2
  · clear hfits
    generalize p.regions = rs at hplaced
    induction hplaced with
    | nil => exact .nil
    | cons hr hrs ih =>
      rw [List.pairwise_cons] at hpair ⊢
      refine ⟨fun r' hr' => ?_, ih hpair.2⟩
      obtain ⟨l', hl', hrl'⟩ := BitmapPmm.forall₂_mem hrs.flip hr'
      rw [hr.base, hr.pages, hrl'.base, hrl'.pages]
      exact hpair.1 l' hl'

/-- Without an entry in the last pages the regions lie apart. -/
theorem KeepsOffLastPages.apart {entries : List Mb2MmapEntry} {kernel info : BootBlock}
    (h : KeepsOffLastPages entries kernel info) (hdisjoint : DisjointUsable entries)
    (hrange : StartsInRange entries) {p : BitmapPmm}
    (hplaced : List.Forall₂ (fun l r => BitmapRegion.Placed r l) (bitmapLayouts entries kernel info)
      p.regions) : p.Apart := by
  have hfits : ∀ l ∈ bitmapLayouts entries kernel info,
      l.managedStart.toNat + l.pages.toNat * 4096 < 2 ^ 32 ∧ 2 ^ 20 ≤ l.managedStart.toNat := by
    intro l hl
    obtain ⟨e, -, usable, hclips, hspec⟩ := h.layout hrange hl
    rw [hspec.stop]
    exact ⟨l.managedStop.isLt, hclips.mib_le.trans hspec.start_ge⟩
  exact apart_of_layouts hfits ((bitmapLayouts_pairwise hdisjoint hrange).imp_of_mem
    fun hl hl' hdis => hdis (hfits _ hl).1 (hfits _ hl').1) hplaced

/-! ### Addresses of a region -/

namespace BitmapRegion

variable {r : BitmapRegion} {i x : ℕ}

/-- The bytes of a page of a region that does not wrap. -/
theorem Fits.inPage (h : r.Fits) (hi : i < r.pages.toNat) (hx : r.InPage i x) :
    r.base.toNat + i * 4096 ≤ x ∧ x < r.base.toNat + i * 4096 + 4096 := by
  unfold InPage at hx
  rwa [h.indexToAddr hi] at hx

/-- The bytes of a region that does not wrap. -/
theorem Fits.manages (h : r.Fits) (hx : r.Manages x) :
    r.base.toNat ≤ x ∧ x < r.base.toNat + r.pages.toNat * 4096 := by
  obtain ⟨i, hi, hin⟩ := hx
  have := h.inPage hi hin
  omega

/-- The bytes where such a region keeps its bitmap. -/
theorem Fits.stores (h : r.Fits) (hle : r.bitmapStorageBytes.toNat ≤ r.pages.toNat * 4096)
    (hx : r.Stores x) : r.base.toNat ≤ x ∧ x < r.base.toNat + r.bitmapStorageBytes.toNat := by
  obtain ⟨k, hk, rfl⟩ := hx
  unfold Fits at h
  have hlt := r.bitmapStorageBytes.isLt
  have hsum : (r.base + BitVec.ofNat 32 k).toNat = r.base.toNat + k := by
    rw [BitVec.toNat_add, BitVec.toNat_ofNat, Nat.mod_eq_of_lt (hk.trans hlt)]
    exact Nat.mod_eq_of_lt (lt_of_le_of_lt (by omega) h)
  omega

section Placed
variable {l : RegionLayout} {usable : U32 × U32} {kernel info : BootBlock}

/-- The bitmap of a placed region lies at its start and in its pages. -/
theorem Placed.stores (hrl : r.Placed l) (hspec : l.Spec usable kernel info) (hfits : r.Fits)
    (hx : r.Stores x) : r.base.toNat ≤ x ∧ x < r.base.toNat + r.bitmapStorageBytes.toNat ∧
      x < r.base.toNat + r.pages.toNat * 4096 := by
  have hst := hspec.storage
  have hlt := hspec.bitmapPages_lt
  have hle : r.bitmapStorageBytes.toNat ≤ r.pages.toNat * 4096 := by
    rw [hrl.storage, hrl.pages]
    omega
  have := hfits.stores hle hx
  omega

/-- The pages of a placed region lie in the usable part of the entry. -/
theorem Placed.page_has (hrl : r.Placed l) (hspec : l.Spec usable kernel info) (hfits : r.Fits)
    {e : Mb2MmapEntry} (hclips : Clips e usable) (hi : i < r.pages.toNat) (hx : r.InPage i x) :
    2 ^ 20 ≤ x ∧ e.Has x := by
  have hin := hfits.inPage hi hx
  have h₁ := hspec.start_ge
  have h₂ := hspec.stop
  have h₃ := hspec.stop_le
  have h₄ := hclips.start_ge
  have h₅ := hclips.stop_le
  have h₆ := hclips.mib_le
  rw [hrl.base] at hin
  rw [hrl.pages] at hi
  unfold Mb2MmapEntry.Has
  omega

/-- Its bitmap is placed behind the kernel image and the boot information, or in front of them. -/
theorem Placed.stores_avoids (hrl : r.Placed l) (hspec : l.Spec usable kernel info) (hfits : r.Fits)
    (hx : r.Stores x) : ¬ kernel.Has x ∧ ¬ info.Has x := by
  have hin := hrl.stores hspec hfits hx
  have hk := hspec.kernel
  have hi := hspec.info
  have hstop := hspec.stop
  rw [hrl.base, hrl.storage, hrl.pages] at hin
  unfold BootBlock.Has
  omega

/-- The pages behind the bitmap have no part of it. -/
theorem Placed.page_stores (hrl : r.Placed l) (hspec : l.Spec usable kernel info) (hfits : r.Fits)
    (hi : i < r.pages.toNat) (hle : l.bitmapPages.toNat ≤ i) (hx : r.InPage i x) : ¬ r.Stores x := by
  intro hst
  have hin := hfits.inPage hi hx
  have hin' := hrl.stores hspec hfits hst
  have hstorage := hspec.storage
  rw [hrl.storage] at hin'
  omega

end Placed

end BitmapRegion

/-! ### The theorem -/

/-- **Initialisation is safe when no entry in the last pages of the address space gets a region.** -/
theorem KeepsOffLastPages.safe {entries : List Mb2MmapEntry} {kernel info : BootBlock}
    (hkeeps : KeepsOffLastPages entries kernel info) (hdisjoint : DisjointUsable entries)
    (hrange : StartsInRange entries) (memory : U32 → U8) :
    ∃ p, pmmBitmapInit memory entries kernel info = some p ∧ p.Safe entries kernel info := by
  obtain ⟨p, hinit, hsound, hplaced, hfree⟩ := pmmBitmapInit_regions memory entries kernel info
  refine ⟨p, hinit, ?_⟩
  have hapart := hkeeps.apart hdisjoint hrange hplaced
  have hlayout : ∀ (ri : ℕ) (r : BitmapRegion), p.regions[ri]? = some r → ∃ l e usable,
      (bitmapLayouts entries kernel info)[ri]? = some l ∧ r.Placed l ∧ e ∈ entries ∧ Clips e usable ∧
        l.Spec usable kernel info := by
    intro ri r hri
    obtain ⟨hlt, rfl⟩ := List.getElem?_eq_some_iff.mp hri
    have hlt' := hlt.trans_eq hplaced.length_eq.symm
    obtain ⟨e, he, usable, hclips, hspec⟩ := hkeeps.layout hrange (List.getElem_mem hlt')
    exact ⟨_, e, usable, List.getElem?_eq_getElem hlt', hplaced.get hlt' hlt, he, hclips, hspec⟩
  have hstores : ∀ r ∈ p.regions, ∀ x, r.Stores x →
      r.base.toNat ≤ x ∧ x < r.base.toNat + r.pages.toNat * 4096 := by
    intro r hr x hx
    obtain ⟨ri, hri⟩ := List.getElem?_of_mem hr
    obtain ⟨l, e, usable, -, hrl, -, -, hspec⟩ := hlayout ri r hri
    obtain ⟨hge, -, hlt⟩ := hrl.stores hspec (hapart.fits r hr) hx
    exact ⟨hge, hlt⟩
  constructor
  · intro r hr i hi
    obtain ⟨ri, hri⟩ := List.getElem?_of_mem hr
    obtain ⟨l, e, usable, -, hrl, he, hclips, hspec⟩ := hlayout ri r hri
    exact ⟨e, he, hclips.isUsable, fun x hx => hrl.page_has hspec (hapart.fits r hr) hclips hi hx⟩
  -- no address is managed by two regions
  · refine hapart.disjoint.imp_of_mem fun {r r'} hr hr' hdis x hx hx' => ?_
    have := (hapart.fits r hr).manages hx
    have := (hapart.fits r' hr').manages hx'
    omega
  -- the storage of a region is in its own pages, so it meets no other region
  · refine hapart.disjoint.imp_of_mem fun {r r'} hr hr' hdis x => ⟨fun hx => ⟨fun hx' => ?_, fun hx' => ?_⟩,
      fun hx hx' => ?_⟩
    · have := hstores r hr x hx
      have := (hapart.fits r' hr').manages hx'
      omega
    · have := hstores r hr x hx
      have := hstores r' hr' x hx'
      omega
    · have := hstores r' hr' x hx
      have := (hapart.fits r hr).manages hx'
      omega
  · intro r hr x hx
    obtain ⟨ri, hri⟩ := List.getElem?_of_mem hr
    obtain ⟨l, e, usable, -, hrl, -, -, hspec⟩ := hlayout ri r hri
    exact hrl.stores_avoids hspec (hapart.fits r hr) hx
  -- a free page is neither of the boot blocks nor of any storage
  · intro r hr i hi hbit x hx
    obtain ⟨ri, hri⟩ := List.getElem?_of_mem hr
    have hpage : p.HasPage ri i (r.indexToAddr i) := ⟨r, hri, hi, rfl⟩
    obtain ⟨hkernel, hinfo, hbitmap⟩ := hfree hapart ri i _ hpage (by
      rw [BitmapPmm.bit, hri, Option.map_some, hbit])
    have hin := (hapart.fits r hr).inPage hi hx
    rw [(hapart.fits r hr).indexToAddr hi] at hkernel hinfo
    unfold BootBlock.Meets at hkernel hinfo
    refine ⟨?_, ?_, fun r' hr' hst => ?_⟩
    · unfold BootBlock.Has
      omega
    · unfold BootBlock.Has
      omega
    · -- the storage of another region is apart, that of this one is in front of its free pages
      obtain ⟨rj, hrj⟩ := List.getElem?_of_mem hr'
      have hin' := hstores r' hr' x hst
      obtain rfl := hapart.region_unique (x := x) hri hrj (by omega) (by omega)
      obtain rfl := Option.some.inj (hri.symm.trans hrj)
      obtain ⟨l, e, usable, hl, hrl, -, -, hspec⟩ := hlayout ri r hri
      exact hrl.page_stores hspec (hapart.fits r hr) hi (hbitmap l hl) hx hst

end Microkernel.Pmm
