import Microkernel.Pmm.BitmapSafety
import Microkernel.Pmm.BitmapView

/-! # The initialised allocator in physical memory

`pmm_bitmap_init` with its bitmaps in physical memory. It returns, and leaves what the allocator whose
regions have bytes of their own is initialised to, when two things are true of the layouts:

* **`StoresLow`** — the storage of every bitmap lies between 1 MiB and 1 GiB, so that its pointer
  reaches it;
* **`LayoutsApart`** — no managed page belongs to two regions.

`memfill_u8` then writes each bitmap where the others are not (`addLayouts_view`), and the patterns of
the self-test miss them all: a free page below 1 GiB has no part of a bitmap, and of those above only the
first four of the GiB are ever tested (`HighFree.alloc`), whose pointers wrap to the first 16 KiB.
**`pmmBitmapInit_view`** is the result. -/

namespace Microkernel.Pmm

/-! ### The layouts -/

/-- The storage of the bitmap lies between 1 MiB and 1 GiB. -/
structure RegionLayout.StoredLow (l : RegionLayout) : Prop where
  mib_le : 2 ^ 20 ≤ l.managedStart.toNat
  stop_le : l.managedStart.toNat + l.bitmapStorageBytes.toNat ≤ 2 ^ 30

instance (l : RegionLayout) : Decidable l.StoredLow :=
  decidable_of_iff (2 ^ 20 ≤ l.managedStart.toNat ∧
      l.managedStart.toNat + l.bitmapStorageBytes.toNat ≤ 2 ^ 30)
    ⟨fun h => ⟨h.1, h.2⟩, fun h => ⟨h.mib_le, h.stop_le⟩⟩

/-- **No bitmap is stored above 1 GiB**, from where on `PHYS_TO_VIRT` wraps, nor below 1 MiB. -/
def StoresLow (entries : List Mb2MmapEntry) (kernel info : BootBlock) : Prop :=
  ∀ l ∈ bitmapLayouts entries kernel info, l.StoredLow

instance (entries : List Mb2MmapEntry) (kernel info : BootBlock) :
    Decidable (StoresLow entries kernel info) :=
  inferInstanceAs (Decidable (∀ l ∈ bitmapLayouts entries kernel info, l.StoredLow))

/-- The managed pages of the layouts lie apart. -/
def LayoutsApart (layouts : List RegionLayout) : Prop :=
  layouts.Pairwise fun l l' =>
    l.managedStart.toNat + l.pages.toNat * 4096 ≤ l'.managedStart.toNat ∨
      l'.managedStart.toNat + l'.pages.toNat * 4096 ≤ l.managedStart.toNat

section
variable {entries : List Mb2MmapEntry} {kernel info : BootBlock} {l : RegionLayout}

/-- A region with its bitmap below 1 GiB does not wrap and starts above the first megabyte. -/
theorem StoresLow.fits (h : StoresLow entries kernel info) (hl : l ∈ bitmapLayouts entries kernel info) :
    l.managedStart.toNat + l.pages.toNat * 4096 < 2 ^ 32 ∧ 2 ^ 20 ≤ l.managedStart.toNat := by
  obtain ⟨-, e, -, -, hlayout, -⟩ := mem_take_filterMap.mp hl
  have hlow := (h l hl).stop_le
  exact ⟨entryLayout_fits hlayout (by omega), (h l hl).mib_le⟩

/-- The layout of an entry in the last pages starts with the last one. -/
theorem StoresLow.keepsOffLastPages (h : StoresLow entries kernel info) :
    KeepsOffLastPages entries kernel info := by
  intro pre e post hentries hlast
  by_contra hlt
  obtain ⟨u, hu⟩ := hlast.entryLayout kernel info
  have hl : wrappedLayout u ∈ bitmapLayouts entries kernel info :=
    mem_take_filterMap.mpr ⟨pre, e, post, hentries, hu, Nat.not_le.mp hlt⟩
  have hstop := (h _ hl).stop_le
  dsimp only [wrappedLayout] at hstop
  exact absurd hstop (by decide)

/-- Disjoint usable entries give layouts that are apart once the wrapped ones are excluded. -/
theorem StoresLow.layoutsApart (h : StoresLow entries kernel info)
    (hdisjoint : DisjointUsable entries) (hrange : StartsInRange entries) :
    LayoutsApart (bitmapLayouts entries kernel info) :=
  (bitmapLayouts_pairwise hdisjoint hrange).imp_of_mem fun hl hl' hdis =>
    hdis (h.fits hl).1 (h.fits hl').1

end

/-! ### A new region -/

namespace InMemory

variable {l : RegionLayout} {q : List PmmRegion × PhysicalMemory} {layouts : List RegionLayout}

/-- The region of a layout whose storage lies below 1 GiB. -/
theorem regionOf_reaches (h : l.Shape) (hlow : l.StoredLow) : (regionOf l).Reaches := by
  have hbytes := h.bytes
  have hle := h.bytes_le
  refine ⟨rfl, hlow.stop_le, ?_, hle⟩
  show l.pages.toNat ≤ 8 * l.bitmapStorageBytes.toNat
  omega

/-- **Its bitmap is written to its storage.** -/
theorem initAndFreeTail_does (h : l.Shape) (hlow : l.StoredLow) (m : PhysicalMemory) :
    ∃ q, (regionOf l).initAndFreeTail m = some q ∧
      PmmRegion.Does (regionOf l) q.1 m q.2 (l.region fun _ => 0#8) := by
  have hreach := regionOf_reaches h hlow
  have hlow' := hreach.low
  have hn : (regionOf l).bitmapStorageBytes.toNat ≤ 2 ^ 30 := by omega
  have hlt := h.bitmapPages_lt
  have hpages := hreach.pages_le
  have hmapped : BootMapped (regionOf l).bitmap (regionOf l).bitmapStorageBytes.toNat := fun k hk => by
    rw [hreach.translate hk]
    rfl
  obtain ⟨m₁, hfill⟩ : ∃ m₁, fillBytes m (regionOf l).bitmap (regionOf l).bitmapStorageBytes.toNat
      (fun _ => 0xFF#8) = some m₁ := ⟨_, if_pos hmapped⟩
  -- all bits are ones, and the bytes behind the storage are not seen
  have hview : PmmRegion.view { regionOf l with free := 0#32 } m₁ =
      { base := l.managedStart
        pages := l.pages
        bitmap := BitmapRegion.memfill (fun _ => 0#8) 0xFF#8 l.bitmapStorageBytes
        bitmapBytes := l.bitmapBytes
        bitmapStorageBytes := l.bitmapStorageBytes
        bitmapPages := l.bitmapPages
        free := 0#32 } := by
    have hbytes : (fun k => if k < l.bitmapStorageBytes.toNat then
        loadByte m₁ ((regionOf l).bitmap + BitVec.ofNat 32 k) else 0#8) =
        BitmapRegion.memfill (fun _ => 0#8) 0xFF#8 l.bitmapStorageBytes := by
      funext k
      unfold BitmapRegion.memfill
      by_cases hk : k < l.bitmapStorageBytes.toNat
      · rw [if_pos hk, if_pos hk]
        exact loadByte_fillBytes hn hfill hk
      · rw [if_neg hk, if_neg hk]
    rw [← hbytes]
    rfl
  have hheader : (regionOf l).SameHeader { regionOf l with free := 0#32 } := rfl
  -- the pages behind the bitmap are freed one by one
  have htail := (hheader.reaches hreach).freeTail (n := l.pages.toNat - l.bitmapPages.toNat)
    (i := l.bitmapPages.toNat) m₁ (by
      show _ ≤ 8 * l.bitmapStorageBytes.toNat
      have : l.pages.toNat ≤ 8 * l.bitmapStorageBytes.toNat := hpages
      omega)
  rw [hview] at htail
  refine ⟨_, ?_, htail.view, hheader.trans htail.header, fun a ha => ?_⟩
  · unfold PmmRegion.initAndFreeTail
    rw [hfill]
    rfl
  · -- neither loop writes outside the storage
    rw [htail.frame a (mt hheader.holds_iff.mp ha)]
    refine fillBytes_of_forall_ne hn hfill fun k hk heq => ha ?_
    rw [hreach.translate hk] at heq
    rw [← Option.some.inj heq]
    exact hreach.holds_add hk

/-! ### All regions -/

/-- The loop over the entries adds the layouts. -/
theorem bitmapAddRegions_eq (kernel info : BootBlock) (es : List Mb2MmapEntry)
    (q : List PmmRegion × PhysicalMemory) :
    bitmapAddRegions kernel info es q =
      ((es.filterMap (entryLayout kernel info)).take (pmmMaxRegions - q.1.length)).foldlM
        (fun q l => pmmAddRegion l q) q := by
  induction es generalizing q with
  | nil => simp [bitmapAddRegions]
  | cons e es ih =>
    rw [bitmapAddRegions, List.filterMap_cons, entryLayout]
    cases hclip : clipEntry e with
    | none =>
      rw [Option.bind_none]
      exact ih q
    | some usable =>
      rw [Option.bind_some]
      by_cases hfull : q.1.length ≥ pmmMaxRegions
      · -- no room is left
        rw [Nat.sub_eq_zero_of_le hfull]
        simp [hfull]
      · dsimp only
        rw [if_neg hfull]
        cases hlayout : pmmComputeRegionLayout kernel info usable with
        | none => exact ih q
        | some l =>
          dsimp only
          obtain ⟨n, hn⟩ : ∃ n, pmmMaxRegions - q.1.length = n + 1 :=
            ⟨pmmMaxRegions - q.1.length - 1, by omega⟩
          rw [hn, List.take_succ_cons, List.foldlM_cons]
          cases hadd : pmmAddRegion l q with
          | none => rfl
          | some q' =>
            obtain ⟨r, -, rfl⟩ := Option.map_eq_some_iff.mp hadd
            have hn' : pmmMaxRegions - (q.1 ++ [r.1], r.2).1.length = n := by
              show pmmMaxRegions - (q.1 ++ [r.1]).length = n
              rw [List.length_append, List.length_singleton]
              omega
            exact (ih _).trans (by rw [hn']; rfl)

/-- **Every layout adds the region with its bitmap**, and the bitmaps before it stay. -/
theorem addLayouts_view (hshape : ∀ l ∈ layouts, l.Shape ∧ l.StoredLow)
    (hpair : LayoutsApart layouts) (hreach : ∀ r ∈ q.1, r.Reaches) (hdis : DisjointStores q.1)
    (hapart : ∀ r ∈ q.1, ∀ l ∈ layouts, ∀ a, r.Holds a → ¬ (regionOf l).Holds a) :
    ∃ q', layouts.foldlM (fun q l => pmmAddRegion l q) q = some q' ∧
      q'.1.map (·.view q'.2) = q.1.map (·.view q.2) ++ layouts.map (RegionLayout.region fun _ => 0#8) ∧
      (∀ r ∈ q'.1, r.Reaches) ∧ DisjointStores q'.1 := by
  induction layouts generalizing q with
  | nil => exact ⟨q, rfl, (List.append_nil _).symm, hreach, hdis⟩
  | cons l layouts ih =>
    unfold LayoutsApart at hpair
    rw [List.pairwise_cons] at hpair
    rw [List.forall_mem_cons] at hshape
    obtain ⟨⟨hl, hlow⟩, hshapes⟩ := hshape
    -- the new region reads its own bytes, and the others theirs still
    obtain ⟨⟨r, m⟩, hinit, hdoes⟩ := initAndFreeTail_does hl hlow q.2
    have hadd : pmmAddRegion l q = some (q.1 ++ [r], m) := by
      unfold pmmAddRegion
      rw [hinit]
      rfl
    have hnew : ∀ r₀ ∈ q.1, ∀ a, r₀.Holds a → ¬ (regionOf l).Holds a := fun r₀ hr₀ =>
      hapart r₀ hr₀ l List.mem_cons_self
    have hreach₁ : ∀ r₀ ∈ q.1 ++ [r], r₀.Reaches := by
      intro r₀ hr₀
      rcases List.mem_append.mp hr₀ with hr₀ | hr₀
      · exact hreach r₀ hr₀
      · rw [List.mem_singleton.mp hr₀]
        exact hdoes.header.reaches (regionOf_reaches hl hlow)
    have hdis₁ : DisjointStores (q.1 ++ [r]) := by
      refine List.pairwise_append.mpr ⟨hdis, List.pairwise_singleton .., fun r₀ hr₀ r₁ hr₁ a ha => ?_⟩
      rw [List.mem_singleton.mp hr₁, hdoes.header.holds_iff]
      exact hnew r₀ hr₀ a ha
    have hapart₁ : ∀ r₀ ∈ q.1 ++ [r], ∀ l' ∈ layouts, ∀ a, r₀.Holds a → ¬ (regionOf l').Holds a := by
      intro r₀ hr₀ l' hl' a ha
      rcases List.mem_append.mp hr₀ with hr₀ | hr₀
      · exact hapart r₀ hr₀ l' (List.mem_cons_of_mem l hl') a ha
      · -- the storage is in the pages of its own layout
        rw [List.mem_singleton.mp hr₀, hdoes.header.holds_iff] at ha
        have hst := hl.storage
        have hst' := (hshapes l' hl').1.storage
        have hlt := hl.bitmapPages_lt
        have hlt' := (hshapes l' hl').1.bitmapPages_lt
        have hranges := hpair.1 l' hl'
        have ha : l.managedStart.toNat ≤ a.toNat ∧
          a.toNat < l.managedStart.toNat + l.bitmapStorageBytes.toNat := ha
        show ¬ (l'.managedStart.toNat ≤ a.toNat ∧
          a.toNat < l'.managedStart.toNat + l'.bitmapStorageBytes.toNat)
        omega
    obtain ⟨q', hfold, hview, hreach', hdis'⟩ :=
      ih (q := (q.1 ++ [r], m)) hshapes hpair.2 hreach₁ hdis₁ hapart₁
    refine ⟨q', ?_, ?_, hreach', hdis'⟩
    · rw [List.foldlM_cons, hadd]
      exact hfold
    · rw [hview, List.map_append, List.map_singleton, hdoes.view, List.append_assoc,
        List.singleton_append, List.map_cons,
        map_view_congr hreach fun r₀ hr₀ a ha => hdoes.frame a fun hl => hnew r₀ hr₀ a ha hl]

end InMemory

/-! ### The pages of the self-test -/

namespace BitmapPmm

variable {p p' : BitmapPmm} {ri i c : ℕ} {a : U32}

/-- The pages from page `c` of the second GiB on are free. -/
def HighFree (p : BitmapPmm) (c : ℕ) : Prop :=
  ∀ ri i a, p.HasPage ri i a → 2 ^ 30 + c * 4096 ≤ a.toNat → p.bit ri i = some false

/-- A page that is returned is the first free one of its region. -/
theorem alloc_index (p : BitmapPmm) (hne : (pmmBitmapAllocPage p).2 ≠ 0#32) :
    ∃ (ri : ℕ) (r : BitmapRegion) (i : ℕ), p.regions[ri]? = some r ∧ r.findFreeIndex = some i ∧
      (pmmBitmapAllocPage p).2 = r.indexToAddr i := by
  have hscan : ∀ n off q, bitmapAllocScan p n off = some q → ∃ (ri : ℕ) (r : BitmapRegion) (i : ℕ),
      p.regions[ri]? = some r ∧ r.findFreeIndex = some i ∧ q.2 = r.indexToAddr i := by
    intro n
    induction n with
    | zero => exact fun _ _ hq => by cases hq
    | succ n ih =>
      intro off q hq
      rw [bitmapAllocScan, Option.or_eq_some_iff] at hq
      rcases hq with hq | ⟨-, hq⟩
      · obtain ⟨r, hr, hq⟩ := Option.bind_eq_some_iff.mp hq
        split at hq
        · cases hq
        · obtain ⟨i, hi, rfl⟩ := Option.map_eq_some_iff.mp hq
          exact ⟨_, r, i, hr, hi, rfl⟩
      · exact ih _ q hq
  unfold pmmBitmapAllocPage at hne ⊢
  split at hne
  · exact absurd rfl hne
  rename_i hguard
  rw [if_neg hguard]
  split at hne
  · exact absurd rfl hne
  rename_i hfree
  rw [if_neg hfree]
  cases hq : bitmapAllocScan p p.regions.length 0 with
  | none =>
    rw [hq] at hne
    exact absurd rfl hne
  | some q => exact hscan _ _ q hq

/-- **One allocation goes at most one page further up.** -/
theorem HighFree.alloc (h : p.HighFree c) (hsound : p.Sound) (hapart : p.Apart)
    (hlow : ∀ r ∈ p.regions, r.base.toNat < 2 ^ 30) (hne : (pmmBitmapAllocPage p).2 ≠ 0#32) :
    (pmmBitmapAllocPage p).2.toNat < 2 ^ 30 + (c + 1) * 4096 ∧
      (pmmBitmapAllocPage p).1.HighFree (c + 1) := by
  obtain ⟨ri, r, i, hr, hfind, haddr⟩ := p.alloc_index hne
  have hmem := List.mem_of_getElem? hr
  have hi := (BitmapRegion.findFreeByte_some hfind).1
  have hfits := hapart.fits r hmem
  have hbase := (U32.pageAligned_iff _).mp (hsound.regions r hmem).toShape.aligned
  have hnum := hfits.indexToAddr hi
  have hbound : (pmmBitmapAllocPage p).2.toNat < 2 ^ 30 + (c + 1) * 4096 := by
    by_contra hge
    rw [haddr, hnum] at hge
    have hbelow := hlow r hmem
    -- the page in front would be free, but this is the first free one
    have hprev : p.bit ri (i - 1) = some false := by
      refine h ri (i - 1) _ ⟨r, hr, by omega, rfl⟩ ?_
      rw [hfits.indexToAddr (by omega)]
      omega
    rw [BitmapPmm.bit, hr, Option.map_some,
      BitmapRegion.findFreeIndex_least hfind (j := i - 1) (by omega)] at hprev
    cases hprev
  refine ⟨hbound, fun rj j b hpage hb => ?_⟩
  rcases hsound.alloc with ⟨heq, -⟩ | ⟨rk, k, hmarks⟩
  · rw [heq] at hne
    exact absurd rfl hne
  · have hpage' := hmarks.same.symm.hasPage hpage
    rw [hmarks.bit, if_neg]
    · -- only the page that was taken has changed
      exact h rj j b hpage' ((Nat.add_le_add_left (Nat.mul_le_mul_right 4096 (Nat.le_succ c)) _).trans hb)
    · rintro ⟨rfl, rfl⟩
      rw [hpage'.unique hmarks.hasPage] at hb
      exact absurd hbound (Nat.not_lt.mpr hb)

/-- The pages that the self-test takes. -/
theorem HighFree.selftestAlloc (h : p.HighFree c) (hsound : p.Sound) (hapart : p.Apart)
    (hlow : ∀ r ∈ p.regions, r.base.toNat < 2 ^ 30) (n : ℕ) :
    ∀ a ∈ (selftestAlloc n p).2, a.toNat < 2 ^ 30 + (c + n) * 4096 := by
  induction n generalizing p c with
  | zero => exact fun a ha => absurd ha List.not_mem_nil
  | succ n ih =>
    intro a ha
    rw [Pmm.selftestAlloc] at ha
    dsimp only at ha
    by_cases hnull : (pmmBitmapAllocPage p).2 = 0#32
    · rw [if_pos hnull] at ha
      exact absurd ha List.not_mem_nil
    rw [if_neg hnull] at ha
    obtain ⟨hbound, hhigh⟩ := h.alloc hsound hapart hlow hnull
    rcases hsound.alloc with ⟨heq, -⟩ | ⟨ri, i, hmarks⟩
    · rw [heq] at hnull
      exact absurd rfl hnull
    rcases List.mem_cons.mp ha with rfl | ha
    · have hle : c + 1 ≤ c + (n + 1) := Nat.add_le_add_left (Nat.succ_le_succ (Nat.zero_le n)) c
      exact hbound.trans_le (Nat.add_le_add_left (Nat.mul_le_mul_right 4096 hle) _)
    · have hlow' : ∀ r ∈ (pmmBitmapAllocPage p).1.regions, r.base.toNat < 2 ^ 30 := by
        intro r hr
        obtain ⟨r₀, hr₀, hsame⟩ := forall₂_mem hmarks.same.regions.flip hr
        rw [BitmapRegion.SameRegion.base hsame]
        exact hlow r₀ hr₀
      have hrest := ih hhigh (hsound.marks hmarks) (hapart.of_same hmarks.same) hlow' a ha
      rwa [Nat.add_assoc, Nat.add_comm 1 n] at hrest

end BitmapPmm

namespace InMemory

variable {s : BitmapMemory} {l : List U32} {m : PhysicalMemory} {a : U32}

/-- The bytes of a page are shown, and none of them is one of a bitmap. -/
def MissesStores (s : BitmapMemory) (a : U32) : Prop :=
  ∀ k < 4096, ∃ x, bootTranslate (physToVirt a + BitVec.ofNat 32 k) = some x ∧
    ∀ r ∈ s.regions, ¬ r.Holds x

/-- **A free page that the self-test takes misses the bitmaps.** -/
theorem missesStores (hapart : s.view.Apart) (hsound : s.view.Sound)
    {ri i : ℕ} {r : PmmRegion} (hr : s.regions[ri]? = some r) (hi : i < r.pages.toNat)
    (hbitmap : r.bitmapStorageBytes.toNat ≤ i * 4096) (ha : r.indexToAddr i = a)
    (hsize : ∀ r ∈ s.regions, r.bitmapStorageBytes.toNat ≤ r.pages.toNat * 4096)
    (hbound : a.toNat < 2 ^ 30 + 4 * 4096) : MissesStores s a := by
  have hview : ∀ {rj : ℕ} {r : PmmRegion}, s.regions[rj]? = some r →
      s.view.regions[rj]? = some (r.view s.memory) := by
    intro rj r hr
    show (s.regions.map _)[rj]? = _
    rw [List.getElem?_map, hr]
    rfl
  have hmem := List.mem_of_getElem? (hview hr)
  have haddr : a.toNat = r.base.toNat + i * 4096 := by
    rw [← ha]
    exact (hapart.fits _ hmem).indexToAddr hi
  have haligned : 4096 ∣ a.toNat := by
    have hbase := (U32.pageAligned_iff _).mp (hsound.regions _ hmem).toShape.aligned
    have hbase : 4096 ∣ r.base.toNat := hbase
    omega
  intro k hk
  by_cases hlow : a.toNat < 2 ^ 30
  · -- below 1 GiB the page is what the pointer shows
    refine ⟨a + BitVec.ofNat 32 k, bootTranslate_physToVirt (by omega), fun r' hr' hholds => ?_⟩
    have hx : (a + BitVec.ofNat 32 k).toNat = a.toNat + k := by
      rw [BitVec.toNat_add, BitVec.toNat_ofNat]
      omega
    unfold PmmRegion.Holds at hholds
    rw [hx] at hholds
    obtain ⟨rj, hrj⟩ := List.getElem?_of_mem hr'
    have hsize' := hsize r' hr'
    obtain rfl := hapart.region_unique (x := a.toNat + k) (hview hr) (hview hrj)
      (by show r.base.toNat ≤ _ ∧ _ < r.base.toNat + r.pages.toNat * 4096; omega)
      (by show r'.base.toNat ≤ _ ∧ _ < r'.base.toNat + r'.pages.toNat * 4096; omega)
    obtain rfl := Option.some.inj (hr.symm.trans hrj)
    omega
  · -- above, the pointer wraps to the first 16 KiB
    have hsome : (bootTranslate (physToVirt a + BitVec.ofNat 32 k)).isSome := by
      rw [isSome_bootTranslate]
      left
      unfold physToVirt kernelVirtOffset
      rw [BitVec.toNat_add, BitVec.toNat_add, BitVec.toNat_ofNat, BitVec.toNat_ofNat]
      omega
    obtain ⟨x, hx⟩ := Option.isSome_iff_exists.mp hsome
    refine ⟨x, hx, fun r' hr' hholds => ?_⟩
    have hwrap := bootTranslate_physToVirt_wraps (by omega) (by omega) hx
    obtain ⟨rj, hrj⟩ := List.getElem?_of_mem hr'
    have hbase : 2 ^ 20 ≤ r'.base.toNat := hapart.low _ (List.mem_of_getElem? (hview hrj))
    unfold PmmRegion.Holds at hholds
    omega

/-- The patterns are written where no bitmap is. -/
theorem selftestWrite_stores (hl : ∀ a ∈ l, MissesStores s a) (i : ℕ) :
    ∃ m', selftestWrite i l m = some m' ∧ ∀ r ∈ s.regions, ∀ x, r.Holds x → m' x = m x := by
  induction l generalizing i m with
  | nil => exact ⟨m, rfl, fun _ _ _ _ => rfl⟩
  | cons a l ih =>
    rw [List.forall_mem_cons] at hl
    have hmapped : BootMapped (physToVirt a) 4096 := fun k hk => by
      obtain ⟨x, hx, -⟩ := hl.1 k hk
      rw [hx]
      rfl
    obtain ⟨m₁, hfill⟩ : ∃ m₁, fillBytes m (physToVirt a) 4096 (patternByte (selftestPattern i)) =
      some m₁ := ⟨_, if_pos hmapped⟩
    have hkeep : ∀ r ∈ s.regions, ∀ x, r.Holds x → m₁ x = m x := by
      intro r hr x hx
      refine fillBytes_of_forall_ne (by decide) hfill fun k hk heq => ?_
      obtain ⟨y, hy, hno⟩ := hl.1 k hk
      obtain rfl := Option.some.inj (hy.symm.trans heq)
      exact hno r hr hx
    rw [selftestWrite, hfill, Option.bind_some]
    split
    · obtain ⟨m', hres, hm'⟩ := ih (m := m₁) hl.2 (i + 1)
      exact ⟨m', hres, fun r hr x hx => (hm' r hr x hx).trans (hkeep r hr x hx)⟩
    · exact ⟨m₁, rfl, hkeep⟩

open BitmapMemory (Steps)

/-- The allocations of the self test, in memory and on the regions it reads. -/
theorem selftestAlloc_steps (hs : s.Reaches) (n : ℕ) :
    Steps s (selftestAlloc n s).1 (Pmm.selftestAlloc n s.view).1 ∧
      (selftestAlloc n s).2 = (Pmm.selftestAlloc n s.view).2 := by
  induction n generalizing s with
  | zero => exact ⟨.refl s, rfl⟩
  | succ n ih =>
    obtain ⟨hstep, hanswer⟩ := hs.alloc_steps
    rw [selftestAlloc, Pmm.selftestAlloc]
    dsimp only
    rw [hanswer]
    by_cases hnull : (Pmm.pmmBitmapAllocPage s.view).2 = 0#32
    · rw [if_pos hnull, if_pos hnull]
      exact ⟨hstep, rfl⟩
    · rw [if_neg hnull, if_neg hnull, ← hstep.view]
      obtain ⟨hrest, hpages⟩ := ih (hstep.reaches hs)
      exact ⟨hstep.trans hrest, by rw [hpages]⟩

/-- Freeing a list of pages, in memory and on the regions it reads. -/
theorem freeAll_steps (hs : s.Reaches) (l : List U32) :
    Steps s (l.foldl (fun s page => pmmBitmapFreePage page s) s)
      (l.foldl (fun p page => Pmm.pmmBitmapFreePage page p) s.view) := by
  induction l generalizing s with
  | nil => exact .refl s
  | cons a l ih =>
    rw [List.foldl_cons, List.foldl_cons]
    have hstep := hs.free_steps a
    have hrest := ih (hstep.reaches hs)
    rw [hstep.view] at hrest
    exact hstep.trans hrest

/-- **The self-test returns**, and its patterns are not seen in the bitmaps. -/
theorem pmmSelftest_view (hs : s.Reaches) (hl : ∀ a ∈ (Pmm.selftestAlloc 4 s.view).2, MissesStores s a) :
    ∃ s', pmmSelftest s = some s' ∧ s'.view = Pmm.pmmSelftest s.view ∧ s'.Reaches ∧
      List.Forall₂ PmmRegion.SameHeader s.regions s'.regions := by
  have hready : s.view.ready = s.ready := rfl
  have hlen : s.view.regions.length = s.regions.length := List.length_map _
  have hpages : s.view.totalPages = s.totalPages := rfl
  have hfree : s.view.totalFree = s.totalFree := rfl
  have hself : List.Forall₂ PmmRegion.SameHeader s.regions s.regions :=
    List.forall₂_same.mpr fun _ _ => rfl
  unfold pmmSelftest Pmm.pmmSelftest
  rw [hready, hlen, hpages, hfree]
  by_cases h : ¬ s.ready = true ∨ s.regions.length = 0 ∨ s.totalPages = 0#32
  · rw [if_pos h, if_pos h]
    exact ⟨s, rfl, rfl, hs, hself⟩
  rw [if_neg h, if_neg h]
  by_cases hfew : s.totalFree < 4#32
  · rw [if_pos hfew, if_pos hfew]
    exact ⟨s, rfl, rfl, hs, hself⟩
  rw [if_neg hfew, if_neg hfew]
  dsimp only
  obtain ⟨hstep, heq⟩ := selftestAlloc_steps hs 4
  have hreach := hstep.reaches hs
  -- every path frees the pages, in memories whose bitmaps are those after the allocations
  have hpath : ∀ m, (∀ r ∈ (selftestAlloc 4 s).1.regions, ∀ a, r.Holds a →
      m a = (selftestAlloc 4 s).1.memory a) →
      (List.foldl (fun s page => pmmBitmapFreePage page s) { (selftestAlloc 4 s).1 with memory := m }
          (selftestAlloc 4 s).2).view =
          List.foldl (fun p page => Pmm.pmmBitmapFreePage page p) (Pmm.selftestAlloc 4 s.view).1
            (Pmm.selftestAlloc 4 s.view).2 ∧
        (List.foldl (fun s page => pmmBitmapFreePage page s) { (selftestAlloc 4 s).1 with memory := m }
          (selftestAlloc 4 s).2).Reaches ∧
        List.Forall₂ PmmRegion.SameHeader s.regions (List.foldl (fun s page => pmmBitmapFreePage page s)
          { (selftestAlloc 4 s).1 with memory := m } (selftestAlloc 4 s).2).regions := by
    intro m hm
    have hreach' : BitmapMemory.Reaches { (selftestAlloc 4 s).1 with memory := m } :=
      ⟨hreach.regions, hreach.disjoint⟩
    have hview := (hreach.view_memory hm).trans hstep.view
    have hfrees := freeAll_steps hreach' (selftestAlloc 4 s).2
    rw [hview] at hfrees
    refine ⟨by rw [hfrees.view, heq], hfrees.reaches hreach', ?_⟩
    exact BitmapPmm.forall₂_comp (fun _ _ _ hr hr' => hr.trans hr') hstep.headers hfrees.headers
  have hsame := hpath (selftestAlloc 4 s).1.memory fun _ _ _ _ => rfl
  -- too few pages, a wrong counter, or all checks
  by_cases hcount : (selftestAlloc 4 s).2.length ≠ 4
  · rw [if_pos hcount]
    exact ⟨_, rfl, hsame⟩
  rw [if_neg hcount]
  by_cases htotal : (selftestAlloc 4 s).1.totalFree ≠ s.totalFree - 4#32
  · rw [if_pos htotal]
    exact ⟨_, rfl, hsame⟩
  rw [if_neg htotal]
  obtain ⟨m', hwrite, hm'⟩ := selftestWrite_stores (s := s) (m := (selftestAlloc 4 s).1.memory) hl 0
  rw [← heq] at hwrite
  rw [hwrite]
  refine ⟨_, rfl, hpath m' fun r hr a ha => ?_⟩
  obtain ⟨r₀, hr₀, hsamer⟩ := BitmapPmm.forall₂_mem hstep.headers.flip hr
  exact hm' r₀ hr₀ a ((PmmRegion.SameHeader.holds_iff hsamer).mp ha)

end InMemory

/-! ### The initialised allocator -/

section
variable {memory : PhysicalMemory} {entries : List Mb2MmapEntry} {kernel info : BootBlock}
  {layouts : List RegionLayout} {p : BitmapPmm} {ri i : ℕ} {a : U32}

/-- A page of the new regions. -/
theorem initialPmm_page (hshape : ∀ l ∈ layouts, l.Shape)
    (hpage : (initialPmm memory layouts).HasPage ri i a) :
    ∃ l, layouts[ri]? = some l ∧ i < l.pages.toNat ∧ (l.region memory).indexToAddr i = a ∧
      (initialPmm memory layouts).bit ri i = some (decide (i < l.bitmapPages.toNat)) := by
  obtain ⟨r, hr, hi, rfl⟩ := hpage
  have hr' : (layouts.map (RegionLayout.region memory))[ri]? = some r := hr
  rw [List.getElem?_map] at hr'
  obtain ⟨l, hl, rfl⟩ := Option.map_eq_some_iff.mp hr'
  obtain ⟨-, -, hpages, -, -, hbits⟩ := (hshape l (List.mem_of_getElem? hl)).region memory
  rw [hpages] at hi
  exact ⟨l, hl, hi, rfl, by rw [BitmapPmm.bit, hr, Option.map_some, hbits i hi]⟩

/-- The new regions lie where their layouts do. -/
theorem initialPmm_placed (hshape : ∀ l ∈ layouts, l.Shape) :
    List.Forall₂ (fun l r => BitmapRegion.Placed r l) layouts (initialPmm memory layouts).regions := by
  show List.Forall₂ _ layouts (layouts.map _)
  rw [List.forall₂_map_right_iff, List.forall₂_same]
  intro l hl
  obtain ⟨-, hbase, hpages, hstorage, -⟩ := (hshape l hl).region memory
  exact ⟨hbase, hpages, hstorage⟩

/-- **Before the self-test** a free page is behind the bitmap of its region, and all pages of the second
GiB are free. -/
theorem Reserves.free_pages (hlow : StoresLow entries kernel info)
    (hapart : (initialPmm memory (bitmapLayouts entries kernel info)).Apart)
    (hres : (initialPmm memory (bitmapLayouts entries kernel info)).Reserves p
      fun x => kernel.Meets x ∨ info.Meets x) :
    (∀ ri i a, p.HasPage ri i a → p.bit ri i = some false →
      ∀ l, (bitmapLayouts entries kernel info)[ri]? = some l → l.bitmapPages.toNat ≤ i) ∧
    p.HighFree 0 := by
  have hshape : ∀ l ∈ bitmapLayouts entries kernel info, l.Shape := fun l hl => bitmapLayouts_shape hl
  constructor
  · intro ri i a hpage hbit l hl
    obtain ⟨l', hl', -, -, hbit₀⟩ := initialPmm_page hshape (hres.same.symm.hasPage hpage)
    obtain rfl := Option.some.inj (hl.symm.trans hl')
    by_contra hlt
    rw [decide_eq_true (not_le.mp hlt)] at hbit₀
    -- the pages of the bitmap are in use, and no step frees them
    rw [hres.bits ri i hbit₀] at hbit
    cases hbit
  · intro ri i a hpage ha
    have hpage₀ := hres.same.symm.hasPage hpage
    obtain ⟨l, hl, hi, -, hbit₀⟩ := initialPmm_page hshape hpage₀
    have hmem := List.mem_of_getElem? hl
    -- the page is behind the bitmap and behind both blocks
    obtain ⟨r, hr, hir, haddr⟩ := hapart.hasPage_toNat hpage₀
    have hr' : ((bitmapLayouts entries kernel info).map (RegionLayout.region memory))[ri]? = some r := hr
    rw [List.getElem?_map, hl] at hr'
    obtain rfl := Option.some.inj hr'
    obtain ⟨-, hbase, -⟩ := (hshape l hmem).region memory
    have hstop := (hlow l hmem).stop_le
    have hstorage := (hshape l hmem).storage
    have hk := kernel.stop_le
    have hinfo := info.stop_le
    have hno : ¬ (kernel.Meets a.toNat ∨ info.Meets a.toNat) := by
      unfold BootBlock.Meets
      omega
    rw [hres.kept ri i a hpage₀ hno, hbit₀, decide_eq_false]
    rw [hbase] at haddr
    omega

/-- The pages that the self-test takes miss the bitmaps. -/
theorem selftest_missesStores (hlow : StoresLow entries kernel info) {s : BitmapMemory}
    (hsound : s.view.Sound) (hapart : s.view.Apart)
    (hplaced : List.Forall₂ (fun l r => BitmapRegion.Placed r l) (bitmapLayouts entries kernel info)
      s.view.regions)
    (hbehind : ∀ ri i a, s.view.HasPage ri i a → s.view.bit ri i = some false →
      ∀ l, (bitmapLayouts entries kernel info)[ri]? = some l → l.bitmapPages.toNat ≤ i)
    (hhigh : s.view.HighFree 0) :
    ∀ a ∈ (selftestAlloc 4 s.view).2, InMemory.MissesStores s a := by
  have hlayout : ∀ (ri : ℕ) (r : PmmRegion), s.regions[ri]? = some r →
      ∃ l, (bitmapLayouts entries kernel info)[ri]? = some l ∧ l.Shape ∧ r.base = l.managedStart ∧
        r.pages = l.pages ∧ r.bitmapStorageBytes = l.bitmapStorageBytes := by
    intro ri r hr
    have hr' : s.view.regions[ri]? = some (r.view s.memory) := by
      show (s.regions.map _)[ri]? = _
      rw [List.getElem?_map, hr]
      rfl
    obtain ⟨hri, hget⟩ := List.getElem?_eq_some_iff.mp hr'
    have hlt : ri < (bitmapLayouts entries kernel info).length := by
      rw [hplaced.length_eq]
      exact hri
    have hrl : BitmapRegion.Placed s.view.regions[ri] (bitmapLayouts entries kernel info)[ri] :=
      hplaced.get hlt hri
    rw [hget] at hrl
    exact ⟨_, List.getElem?_eq_getElem hlt, bitmapLayouts_shape (List.getElem_mem hlt), hrl.base,
      hrl.pages, hrl.storage⟩
  -- the storage ends below 1 GiB, so the region begins there
  have hbase : ∀ r ∈ s.view.regions, r.base.toNat < 2 ^ 30 := by
    intro r hr
    obtain ⟨l, hl, hrl⟩ := BitmapPmm.forall₂_mem hplaced.flip hr
    have hstop := (hlow l hl).stop_le
    have hbytes := (bitmapLayouts_shape hl).bytes
    have hle := (bitmapLayouts_shape hl).bytes_le
    have hlt := (bitmapLayouts_shape hl).bitmapPages_lt
    rw [BitmapRegion.Placed.base hrl]
    omega
  intro a ha
  obtain ⟨ri, i, hpage, hbit⟩ := (hsound.selftestAlloc 4).2.2.1 a ha
  have hbound := hhigh.selftestAlloc hsound hapart hbase 4 a ha
  rw [Nat.zero_add] at hbound
  have hpage' := hpage
  obtain ⟨r', hr', hi, haddr⟩ := hpage'
  have hr : (s.regions.map (·.view s.memory))[ri]? = some r' := hr'
  rw [List.getElem?_map] at hr
  obtain ⟨r, hrs, rfl⟩ := Option.map_eq_some_iff.mp hr
  obtain ⟨l, hl, hshape, -, -, hstorage⟩ := hlayout ri r hrs
  refine InMemory.missesStores hapart hsound hrs hi ?_ haddr (fun r₂ hr₂ => ?_) hbound
  · rw [hstorage, hshape.storage]
    exact Nat.mul_le_mul_right 4096 (hbehind ri i a hpage hbit l hl)
  · obtain ⟨rj, hrj⟩ := List.getElem?_of_mem hr₂
    obtain ⟨l₂, -, hshape₂, -, hpages₂, hstorage₂⟩ := hlayout rj r₂ hrj
    have hst := hshape₂.storage
    have hlt := hshape₂.bitmapPages_lt
    rw [hstorage₂, hpages₂]
    omega

/-- The totals of the regions that the layouts have added. -/
theorem recomputeTotals_view {q : List PmmRegion × PhysicalMemory}
    (hview : q.1.map (·.view q.2) = layouts.map (RegionLayout.region fun _ => 0#8)) :
    (InMemory.pmmRecomputeTotals ⟨q.1, 0, 0#32, 0#32, true, q.2⟩).view =
      initialPmm (fun _ => 0#8) layouts := by
  have hpages : q.1.map (·.pages) = (q.1.map (·.view q.2)).map (·.pages) := by
    rw [List.map_map]
    rfl
  have hfree : q.1.map (·.free) = (q.1.map (·.view q.2)).map (·.free) := by
    rw [List.map_map]
    rfl
  show BitmapPmm.mk (q.1.map (·.view q.2)) 0 ((q.1.map (·.pages)).foldl (· + ·) 0#32)
    ((q.1.map (·.free)).foldl (· + ·) 0#32) true = _
  rw [hpages, hfree, hview]
  rfl

/-- **`pmm_bitmap_init` in physical memory**: it returns, and the bitmaps that it leaves in memory are
those of the allocator whose regions have bytes of their own. -/
theorem pmmBitmapInit_view (memory : PhysicalMemory) (hlow : StoresLow entries kernel info)
    (hlayouts : LayoutsApart (bitmapLayouts entries kernel info)) :
    ∃ s, InMemory.pmmBitmapInit memory entries kernel info = some s ∧
      pmmBitmapInit (fun _ => 0#8) entries kernel info = some s.view ∧ s.Reaches := by
  have hshape : ∀ l ∈ bitmapLayouts entries kernel info, l.Shape := fun l hl => bitmapLayouts_shape hl
  obtain ⟨q, hadd, hview, hreach, hdis⟩ := InMemory.addLayouts_view (q := ([], memory))
    (fun l hl => ⟨hshape l hl, hlow l hl⟩) hlayouts (fun r hr => absurd hr List.not_mem_nil) .nil
    fun r hr => absurd hr List.not_mem_nil
  rw [List.map_nil, List.nil_append] at hview
  have hlen : q.1.length = (bitmapLayouts entries kernel info).length := by
    rw [← @List.length_map _ _ q.1, hview, List.length_map]
  have hregions : InMemory.bitmapAddRegions kernel info entries ([], memory) = some q :=
    (InMemory.bitmapAddRegions_eq kernel info entries ([], memory)).trans hadd
  unfold InMemory.pmmBitmapInit
  rw [hregions, Option.bind_some, hlen]
  by_cases hnil : bitmapLayouts entries kernel info = []
  · -- without a region the allocator stays off
    rw [hnil, List.length_nil, if_pos rfl]
    refine ⟨_, rfl, ?_, fun r hr => absurd hr List.not_mem_nil, .nil⟩
    unfold pmmBitmapInit
    dsimp only [pmmResetState]
    rw [bitmapAddRegions_nil, hnil]
    rfl
  rw [if_neg (mt List.length_eq_zero_iff.mp hnil)]
  dsimp only
  obtain ⟨p₁, p₂, -, hkernel, hinfo, hres, hresync, hinit⟩ := pmmBitmapInit_stages (fun _ => 0#8) hnil
  -- the totals, the reservations, and nothing to resynchronise
  obtain ⟨s₀, hs₀⟩ : ∃ s₀, InMemory.pmmRecomputeTotals ⟨q.1, 0, 0#32, 0#32, true, q.2⟩ = s₀ := ⟨_, rfl⟩
  have hview₀ := recomputeTotals_view hview
  have hreach₀ : s₀.Reaches := by
    rw [← hs₀]
    exact ⟨hreach, hdis⟩
  rw [hs₀] at hview₀ ⊢
  obtain ⟨s₁, hs₁, hstep₁⟩ := hreach₀.markUsedRange_steps (hview₀.symm ▸ hkernel)
  have hreach₁ := hstep₁.reaches hreach₀
  obtain ⟨s₂, hs₂, hstep₂⟩ := hreach₁.markUsedRange_steps (hstep₁.view.symm ▸ hinfo)
  have hreach₂ := hstep₂.reaches hreach₁
  have hstep₃ := hreach₂.resync_steps
  rw [hstep₂.view, hresync] at hstep₃
  rw [hs₁, Option.bind_some, hs₂, Option.bind_some]
  -- the self-test
  have hapart : (initialPmm (fun _ => 0#8) (bitmapLayouts entries kernel info)).Apart :=
    apart_of_layouts (fun l hl => hlow.fits hl) hlayouts (initialPmm_placed hshape)
  obtain ⟨hbehind, hhigh⟩ := Reserves.free_pages hlow hapart hres
  have hplaced : List.Forall₂ (fun l r => BitmapRegion.Placed r l) (bitmapLayouts entries kernel info)
      p₂.regions :=
    BitmapPmm.forall₂_comp (fun l r r' hr hrr => ⟨hrr.base.trans hr.base, hrr.pages.trans hr.pages,
      hrr.bitmapStorageBytes.trans hr.storage⟩) (initialPmm_placed hshape) hres.same.regions
  have hview₃ := hstep₃.view
  obtain ⟨s, hs, hviews, hreachs, -⟩ := InMemory.pmmSelftest_view (hstep₃.reaches hreach₂)
    (selftest_missesStores hlow (hview₃.symm ▸ hres.sound)
      (hview₃.symm ▸ hapart.of_same hres.same) (hview₃.symm ▸ hplaced) (hview₃.symm ▸ hbehind)
      (hview₃.symm ▸ hhigh))
  exact ⟨s, hs, by rw [hinit, hviews, hview₃], hreachs⟩

end

end Microkernel.Pmm
