import Microkernel.Pmm.BitmapLayout
import Microkernel.Pmm.BitmapOps

/-! # The initialised bitmap allocator

`pmm_bitmap_init` step by step: the regions it makes of the memory map, the pages it marks used for the
kernel image and the Multiboot2 information, and its self-test.

* **`bitmapLayouts`, `bitmapAddRegions_eq`** — the loop over the entries, as the list of the layouts that
  it makes.
* **`Reserves`** — which pages are used after some were marked; the kernel image and the information are
  marked by address, and every page that meets them is found.
* **`pmmBitmapInit_cases`** — the function returns. Without a region the allocator stays disabled;
  otherwise both blocks are reserved and the self-test gives back what it takes.
-/

namespace Microkernel.Pmm

open BitmapRegion (SameRegion)

/-! ### A new region -/

/-- The loop that frees the pages behind the bitmap. -/
theorem BitmapRegion.Sound.freeTail {n i : ℕ} {r : BitmapRegion} (h : r.Sound)
    (hend : i + n ≤ r.pages.toNat) (hbits : ∀ j, i ≤ j → j < i + n → r.bitmapTest j = true) :
    (freeTail n i r).Sound ∧ SameRegion r (freeTail n i r) ∧
      (freeTail n i r).free.toNat = r.free.toNat + n ∧
      ∀ j, (freeTail n i r).bitmapTest j = (r.bitmapTest j && !decide (i ≤ j ∧ j < i + n)) := by
  induction n generalizing i r with
  | zero =>
    refine ⟨h, .refl r, rfl, fun j => ?_⟩
    have hno : ¬ (i ≤ j ∧ j < i + 0) := by omega
    rw [decide_eq_false hno, Bool.not_false, Bool.and_true]
    rfl
  | succ n ih =>
    -- page `i` is given back, the others follow
    obtain ⟨hsound, hfree⟩ := h.give (i := i) (by omega) (hbits i le_rfl (by omega))
    have hrest : ∀ j, i + 1 ≤ j → j < i + 1 + n → (r.give i).bitmapTest j = true := by
      intro j hj hj'
      have hne : j ≠ i := by omega
      simp [hbits j (by omega) (by omega), hne]
    obtain ⟨hsound', hsame, hfree', htest⟩ := ih hsound (by
      rw [(r.give_same i).pages]
      omega) hrest
    refine ⟨hsound', (r.give_same i).trans hsame, ?_, fun j => ?_⟩
    · show (BitmapRegion.freeTail n (i + 1) (r.give i)).free.toNat = _
      omega
    · show (BitmapRegion.freeTail n (i + 1) (r.give i)).bitmapTest j = _
      rw [htest, bitmapTest_give]
      by_cases hj : j = i
      · subst hj
        simp
      · have hiff : (i + 1 ≤ j ∧ j < i + 1 + n) ↔ (i ≤ j ∧ j < i + (n + 1)) := by omega
        rw [decide_eq_false hj, Bool.not_false, Bool.and_true, decide_eq_decide.mpr hiff]

/-- **A new region**: the pages of its bitmap are used, all others are free. -/
theorem RegionLayout.Shape.region {l : RegionLayout} (h : l.Shape) (memory : U32 → U8) :
    (l.region memory).Sound ∧ (l.region memory).base = l.managedStart ∧
      (l.region memory).pages = l.pages ∧
      (l.region memory).bitmapStorageBytes = l.bitmapStorageBytes ∧
      (l.region memory).free.toNat = l.pages.toNat - l.bitmapPages.toNat ∧
      ∀ j < l.pages.toNat, (l.region memory).bitmapTest j = decide (j < l.bitmapPages.toNat) := by
  obtain ⟨r₀, hr₀⟩ : ∃ r₀ : BitmapRegion, r₀ =
      { base := l.managedStart
        pages := l.pages
        bitmap := BitmapRegion.memfill
          (fun k => memory (physToVirt l.managedStart + BitVec.ofNat 32 k)) 0xFF#8 l.bitmapStorageBytes
        bitmapBytes := l.bitmapBytes
        bitmapStorageBytes := l.bitmapStorageBytes
        bitmapPages := l.bitmapPages
        free := 0#32 } := ⟨_, rfl⟩
  have hregion : l.region memory =
      BitmapRegion.freeTail (l.pages.toNat - l.bitmapPages.toNat) l.bitmapPages.toNat r₀ := by
    rw [hr₀]
    rfl
  have hbytes := h.bytes
  have hle := h.bytes_le
  have hlt := h.bitmapPages_lt
  -- at first every bit is a one
  have hones : ∀ j < 8 * l.bitmapStorageBytes.toNat, r₀.bitmapTest j = true := by
    intro j hj
    have hword : r₀.bitmap (j / 8) = BitVec.allOnes 8 := by
      rw [hr₀]
      exact if_pos (by omega)
    rw [BitmapRegion.bitmapTest_eq, ← Nat.div_add_mod' j 8]
    exact (Bitmap.word_eq_allOnes_iff _ _).mp hword _ (Nat.mod_lt _ (by decide))
  have hpages : r₀.pages = l.pages := by rw [hr₀]
  have hsound : r₀.Sound := by
    refine ⟨⟨?_, ?_, ?_, ?_⟩, ?_, ?_⟩
    · rw [hpages]
      omega
    · rw [hpages]
      exact h.pages_lt
    · rw [hr₀]
      exact h.bytes
    · rw [hr₀]
      exact (U32.pageAligned_iff _).mpr h.start_dvd
    · have hzero : r₀.free.toNat = 0 := by
        rw [hr₀]
        rfl
      rw [hzero, BitmapRegion.zeroBits, eq_comm, ← Nat.le_zero, ← Nat.not_lt, Bitmap.count_pos_iff]
      rintro ⟨i, hi, hbit⟩
      rw [hpages] at hi
      rw [hones i (by omega)] at hbit
      cases hbit
    · intro i _ hi
      refine hones i (lt_of_lt_of_le hi ?_)
      rw [hr₀]
      exact Nat.mul_le_mul_left 8 hle
  obtain ⟨hsound', hsame, hfree, htest⟩ := hsound.freeTail
    (n := l.pages.toNat - l.bitmapPages.toNat) (i := l.bitmapPages.toNat) (by rw [hpages]; omega)
    fun j _ hj => hones j (by omega)
  rw [hregion]
  refine ⟨hsound', ?_, ?_, ?_, ?_, fun j hj => ?_⟩
  · rw [hsame.base, hr₀]
  · rw [hsame.pages, hpages]
  · rw [hsame.bitmapStorageBytes, hr₀]
  · rw [hfree, hr₀]
    exact Nat.zero_add _
  · rw [htest, hones j (by omega), Bool.true_and, ← decide_not, decide_eq_decide]
    omega

/-! ### All regions -/

/-- The layouts of the regions: of the entries that have one, the first 32. -/
def bitmapLayouts (entries : List Mb2MmapEntry) (kernel info : BootBlock) : List RegionLayout :=
  (entries.filterMap (entryLayout kernel info)).take pmmMaxRegions

/-- The loop over the entries adds a region for every entry with a layout, in their order, until 32 are there. -/
theorem bitmapAddRegions_eq (memory : U32 → U8) (kernel info : BootBlock) (es : List Mb2MmapEntry)
    (regions : List BitmapRegion) :
    bitmapAddRegions memory kernel info es regions = regions ++
      ((es.filterMap (entryLayout kernel info)).take (pmmMaxRegions - regions.length)).map
        (RegionLayout.region memory) := by
  induction es generalizing regions with
  | nil => simp [bitmapAddRegions]
  | cons e es ih =>
    rw [bitmapAddRegions, List.filterMap_cons, entryLayout]
    cases hclip : clipEntry e with
    | none =>
      rw [Option.bind_none]
      exact ih regions
    | some usable =>
      rw [Option.bind_some]
      by_cases hfull : regions.length ≥ pmmMaxRegions
      · -- no room is left
        rw [Nat.sub_eq_zero_of_le hfull]
        simp [hfull]
      · dsimp only
        rw [if_neg hfull]
        cases hlayout : pmmComputeRegionLayout kernel info usable with
        | none => exact ih regions
        | some l =>
          dsimp only
          obtain ⟨m, hm⟩ : ∃ m, pmmMaxRegions - regions.length = m + 1 :=
            ⟨pmmMaxRegions - regions.length - 1, by omega⟩
          have hm' : pmmMaxRegions - (regions ++ [l.region memory]).length = m := by
            rw [List.length_append, List.length_singleton]
            omega
          rw [ih, hm, hm', List.take_succ_cons, List.map_cons, List.append_assoc, List.singleton_append]

/-- The regions of a memory map. -/
theorem bitmapAddRegions_nil (memory : U32 → U8) (entries : List Mb2MmapEntry) (kernel info : BootBlock) :
    bitmapAddRegions memory kernel info entries [] =
      (bitmapLayouts entries kernel info).map (RegionLayout.region memory) := by
  rw [bitmapAddRegions_eq, List.nil_append]
  rfl

/-- The entry of a layout. -/
theorem mem_take_filterMap {α β : Type*} {f : α → Option β} {l : List α} {n : ℕ} {b : β} :
    b ∈ (l.filterMap f).take n ↔
      ∃ pre a post, l = pre ++ a :: post ∧ f a = some b ∧ (pre.filterMap f).length < n := by
  constructor
  · induction l generalizing n with
    | nil => simp
    | cons x l ih =>
      intro h
      rw [List.filterMap_cons] at h
      cases hx : f x with
      | none =>
        rw [hx] at h
        obtain ⟨pre, a, post, rfl, ha, hlt⟩ := ih h
        exact ⟨x :: pre, a, post, rfl, ha, by rwa [List.filterMap_cons, hx]⟩
      | some y =>
        rw [hx] at h
        cases n with
        | zero => simp at h
        | succ n =>
          rcases List.mem_cons.mp h with rfl | h
          · exact ⟨[], x, l, rfl, hx, by simp⟩
          · obtain ⟨pre, a, post, rfl, ha, hlt⟩ := ih h
            exact ⟨x :: pre, a, post, rfl, ha, by rw [List.filterMap_cons, hx]; simpa using hlt⟩
  · rintro ⟨pre, a, post, rfl, ha, hlt⟩
    rw [List.filterMap_append, List.filterMap_cons, ha, List.take_append]
    obtain ⟨m, hm⟩ : ∃ m, n - (pre.filterMap f).length = m + 1 :=
      ⟨n - (pre.filterMap f).length - 1, by omega⟩
    rw [hm]
    simp

/-! ### Totals -/

/-- A sum of words that does not overflow. -/
theorem foldl_add_toNat {l : List U32} {x : U32} (h : x.toNat + (l.map BitVec.toNat).sum < 2 ^ 32) :
    (l.foldl (· + ·) x).toNat = x.toNat + (l.map BitVec.toNat).sum := by
  induction l generalizing x with
  | nil => rfl
  | cons y l ih =>
    rw [List.map_cons, List.sum_cons] at h ⊢
    have hxy : (x + y).toNat = x.toNat + y.toNat := by
      rw [BitVec.toNat_add]
      exact Nat.mod_eq_of_lt (lt_of_le_of_lt (by omega) h)
    rw [List.foldl_cons, ih (by rwa [hxy, Nat.add_assoc]), hxy, Nat.add_assoc]

/-- At most 32 counters below `2 ^ 20` add up without wrapping. -/
theorem sum_words_toNat {regions : List BitmapRegion} {f : BitmapRegion → U32}
    (hcount : regions.length ≤ pmmMaxRegions) (hf : ∀ r ∈ regions, (f r).toNat < 2 ^ 20) :
    ((regions.map f).foldl (· + ·) 0#32).toNat = (regions.map fun r => (f r).toNat).sum := by
  have hle := BitmapPmm.sum_regions_le hcount hf
  have hmap : (regions.map f).map BitVec.toNat = regions.map fun r => (f r).toNat := List.map_map
  rw [foldl_add_toNat, hmap]
  · exact Nat.zero_add _
  · rw [hmap]
    exact lt_of_le_of_lt ((Nat.zero_add _).le.trans hle) (by decide)

/-- A free counter counts pages, so it is below `2 ^ 20`. -/
theorem BitmapRegion.Sound.free_lt {r : BitmapRegion} (h : r.Sound) : r.free.toNat < 2 ^ 20 := by
  rw [h.free]
  exact lt_of_le_of_lt r.zeroBits_le h.pages_lt

/-- **With the totals recomputed the counters agree with the bits.** -/
theorem pmmRecomputeTotals_sound {regions : List BitmapRegion} (hsound : ∀ r ∈ regions, r.Sound)
    (hcount : regions.length ≤ pmmMaxRegions) (hne : regions ≠ []) (rr : ℕ) (t t' : U32) :
    (pmmRecomputeTotals ⟨regions, rr, t, t', true⟩).Sound := by
  have hsum : ∀ f : BitmapRegion → U32, (∀ r ∈ regions, (f r).toNat < 2 ^ 20) →
      ((regions.map f).foldl (· + ·) 0#32).toNat = (regions.map fun r => (f r).toNat).sum :=
    fun f hf => sum_words_toNat hcount hf
  refine ⟨hsound, hcount, hsum _ fun r hr => (hsound r hr).free_lt,
    hsum _ fun r hr => (hsound r hr).pages_lt, ?_⟩
  exact ⟨fun _ => hne, fun _ => rfl⟩

/-- The page at this address has an address of the block in it. -/
def BootBlock.Meets (b : BootBlock) (x : ℕ) : Prop := b.start.toNat < x + 4096 ∧ x < b.stop.toNat

namespace BitmapPmm

variable {p p' : BitmapPmm} {ri i : ℕ} {a : U32}

/-- `pmm_resync_free_count` finds nothing to correct. -/
theorem Sound.resync (h : p.Sound) : pmmResyncFreeCount p = p := by
  have hregions : p.regions.map (fun r => { r with free := r.countFree r.pages.toNat }) = p.regions := by
    refine (List.map_congr_left fun r hr => ?_).trans p.regions.map_id
    rw [(h.regions r hr).countFree]
    rfl
  have htotal : (p.regions.map (·.free)).foldl (· + ·) 0#32 = p.totalFree := by
    apply BitVec.eq_of_toNat_eq
    rw [h.totalFree]
    exact sum_words_toNat h.count fun r hr => (h.regions r hr).free_lt
  rw [pmmResyncFreeCount, hregions, htotal]

/-! ### Reserved pages -/

/-- After some pages were marked used, all those found at an address of `S` among them. -/
structure Reserves (p p' : BitmapPmm) (S : ℕ → Prop) : Prop where
  sound : p'.Sound
  same : SamePmm p p'
  bits : ∀ ri i, p.bit ri i = some true → p'.bit ri i = some true
  marked : ∀ a, a.PageAligned → S a.toNat → ∀ ri i, p'.Owns ri i a → p'.bit ri i = some true
  kept : ∀ ri i a, p.HasPage ri i a → ¬ S a.toNat → p'.bit ri i = p.bit ri i
  /-- Nothing is marked where nothing is found. -/
  unowned : (∀ a, a.PageAligned → S a.toNat → ∀ ri i, ¬ p.Owns ri i a) → p' = p

/-- Marking the page of one aligned address reserves that address and nothing else. -/
theorem Sound.reserves_one (h : p.Sound) (ha : a.PageAligned) :
    Reserves p (bitmapMarkUsedByAddr a p) (· = a.toNat) := by
  rcases h.markUsedByAddr ha with ⟨heq, hbit⟩ | ⟨ri, i, howns, hmarks⟩
  · rw [heq]
    refine ⟨h, .refl p, fun _ _ hbit => hbit, fun b _ hb rj j hj => ?_, fun _ _ _ _ _ => rfl,
      fun _ => rfl⟩
    obtain rfl := BitVec.eq_of_toNat_eq hb
    exact hbit rj j hj
  · refine ⟨h.marks hmarks, hmarks.same, fun rj j hj => ?_, fun b _ hb rj j hj => ?_,
      fun rj j b hpage hb => ?_, fun hno => ?_⟩
    · rw [hmarks.bit, hj, ite_self]
    · obtain rfl := BitVec.eq_of_toNat_eq hb
      rw [hmarks.bit, if_pos ((hmarks.same.symm.owns hj).unique howns)]
    · rw [hmarks.bit, if_neg]
      rintro ⟨rfl, rfl⟩
      exact hb (congrArg BitVec.toNat (hpage.unique hmarks.hasPage))
    · exact absurd howns (hno a ha rfl ri i)

/-- Two reservations in turn reserve both sets of addresses. -/
theorem Reserves.trans {p₁ p₂ p₃ : BitmapPmm} {S T : ℕ → Prop} (h : Reserves p₁ p₂ S)
    (h' : Reserves p₂ p₃ T) : Reserves p₁ p₃ fun x => S x ∨ T x := by
  refine ⟨h'.sound, h.same.trans h'.same, fun ri i hbit => h'.bits ri i (h.bits ri i hbit),
    fun a ha hmem ri i howns => ?_, fun ri i a hpage hno => ?_, fun hno => ?_⟩
  · rcases hmem with hmem | hmem
    · exact h'.bits ri i (h.marked a ha hmem ri i (h'.same.symm.owns howns))
    · exact h'.marked a ha hmem ri i howns
  · rw [not_or] at hno
    rw [h'.kept ri i a (h.same.hasPage hpage) hno.2, h.kept ri i a hpage hno.1]
  · obtain rfl := h.unowned fun a ha hmem => hno a ha (.inl hmem)
    exact h'.unowned fun a ha hmem => hno a ha (.inr hmem)

/-- Only the addresses of pages matter. -/
theorem Reserves.congr {S T : ℕ → Prop} (h : Reserves p p' S) (hST : ∀ x, 4096 ∣ x → (T x ↔ S x)) :
    Reserves p p' T := by
  have hpage : ∀ a : U32, a.PageAligned → (T a.toNat ↔ S a.toNat) := fun a ha =>
    hST _ ((U32.pageAligned_iff a).mp ha)
  refine ⟨h.sound, h.same, h.bits, fun a ha hmem => h.marked a ha ((hpage a ha).mp hmem),
    fun ri i a ha hno => h.kept ri i a ha (mt (hpage a ?_).mpr hno),
    fun hno => h.unowned fun a ha hmem => hno a ha ((hpage a ha).mpr hmem)⟩
  obtain ⟨r, hr, hi, rfl⟩ := h.same.hasPage ha
  exact (h.sound.regions r (List.mem_of_getElem? hr)).toShape.indexToAddr_aligned hi

/-- The loop over the pages of a range returns. -/
theorem Sound.markUsedLoop {stop : U32} (hstop : stop.PageAligned) {n : ℕ} (h : p.Sound)
    (ha : a.PageAligned) (hle : a.toNat ≤ stop.toNat) (hn : stop.toNat < a.toNat + n * 4096) :
    ∃ p', bitmapMarkUsedLoop stop n a p = some p' ∧
      Reserves p p' fun x => a.toNat ≤ x ∧ x < stop.toNat := by
  rw [U32.pageAligned_iff] at hstop
  induction n generalizing a p with
  | zero => omega
  | succ n ih =>
    rw [bitmapMarkUsedLoop]
    have ha' := (U32.pageAligned_iff a).mp ha
    by_cases hlt : a < stop
    · rw [if_pos hlt]
      rw [BitVec.lt_def] at hlt
      have hnext : (a + pageSize).toNat = a.toNat + 4096 := by
        have hstop32 := stop.isLt
        rw [BitVec.toNat_add, show pageSize.toNat = 4096 from rfl]
        exact Nat.mod_eq_of_lt (lt_of_le_of_lt (by omega) hstop32)
      have hone := h.reserves_one ha
      obtain ⟨p', hres, hp'⟩ := ih (a := a + pageSize) hone.sound
        ((U32.pageAligned_iff _).mpr (by omega)) (by omega) (by omega)
      refine ⟨p', hres, (hone.trans hp').congr fun x hx => ?_⟩
      omega
    · rw [if_neg hlt]
      rw [BitVec.lt_def] at hlt
      exact ⟨p, rfl, h, .refl p, fun _ _ hbit => hbit, fun b hb hmem => by omega,
        fun _ _ _ _ _ => rfl, fun _ => rfl⟩

/-- **The reservation of a block returns**, and no page that meets the block is left free. -/
theorem Sound.markUsedRange (h : p.Sound) (hready : p.ready = true) (b : BootBlock) :
    ∃ p', bitmapMarkUsedRange b.start b.stop p = some p' ∧ Reserves p p' b.Meets := by
  have hlt : b.start.toNat < b.stop.toNat := b.start_lt_stop
  have hmax := b.stop_le
  have hup := b.alignUp_stop
  have hdown := alignDown_toNat b.start
  obtain ⟨p', hres, hp'⟩ : ∃ p', bitmapMarkUsedLoop (alignUp b.stop pageSize) (2 ^ 20)
      (alignDown b.start pageSize) p = some p' ∧ Reserves p p' fun x =>
        (alignDown b.start pageSize).toNat ≤ x ∧ x < (alignUp b.stop pageSize).toNat := by
    refine h.markUsedLoop ?_ ?_ (by omega) (by omega)
    · rw [U32.pageAligned_iff]
      omega
    · rw [U32.pageAligned_iff]
      omega
  refine ⟨p', ?_, hp'.congr fun x hx => ?_⟩
  · rw [bitmapMarkUsedRange, if_neg (not_not.mpr hready), if_neg, hres]
    rw [BitVec.le_def]
    omega
  · unfold BootBlock.Meets
    omega

/-! ### The self-test -/

/-- The pages of the self-test were free before. -/
theorem Sound.selftestAlloc (h : p.Sound) (n : ℕ) :
    (selftestAlloc n p).1.Sound ∧ SamePmm p (selftestAlloc n p).1 ∧
      (∀ a ∈ (selftestAlloc n p).2, ∃ ri i, p.HasPage ri i a ∧ p.bit ri i = some false) ∧
      (∀ ri i, (selftestAlloc n p).1.bit ri i = some false → p.bit ri i = some false) ∧
      p.totalFree.toNat ≤ (selftestAlloc n p).1.totalFree.toNat + n := by
  induction n generalizing p with
  | zero => exact ⟨h, .refl p, fun a ha => absurd ha List.not_mem_nil, fun _ _ hbit => hbit, le_rfl⟩
  | succ n ih =>
    rw [Pmm.selftestAlloc]
    dsimp only
    rcases h.alloc with ⟨heq, -⟩ | ⟨ri, i, hmarks⟩
    · rw [heq, if_pos rfl]
      exact ⟨h, .refl p, fun a ha => absurd ha List.not_mem_nil, fun _ _ hbit => hbit,
        Nat.le_add_right _ _⟩
    · have hsound := h.marks hmarks
      have hbits : ∀ rj j, (pmmBitmapAllocPage p).1.bit rj j = some false → p.bit rj j = some false := by
        intro rj j hbit
        rw [hmarks.bit] at hbit
        split at hbit
        · cases hbit
        · exact hbit
      have hfree : p.totalFree.toNat ≤ (pmmBitmapAllocPage p).1.totalFree.toNat + 1 := by
        rw [hmarks.totalFree, if_pos rfl]
        bv_omega
      obtain ⟨hsound', hsame, hpages, hbits', hfree'⟩ := ih hsound
      -- page 0 reads as a failure: the self-test stops there and does not free it
      by_cases hnull : (pmmBitmapAllocPage p).2 = 0#32
      · rw [if_pos hnull]
        exact ⟨hsound, hmarks.same, fun a ha => absurd ha List.not_mem_nil, hbits,
          by dsimp only; omega⟩
      · rw [if_neg hnull]
        refine ⟨hsound', hmarks.same.trans hsame, fun a ha => ?_, fun rj j hbit =>
          hbits rj j (hbits' rj j hbit), by dsimp only; omega⟩
        rcases List.mem_cons.mp ha with rfl | ha
        · exact ⟨ri, i, hmarks.hasPage, hmarks.bit_before⟩
        · obtain ⟨rj, j, hpage, hbit⟩ := hpages a ha
          exact ⟨rj, j, hmarks.same.symm.hasPage hpage, hbits rj j hbit⟩

/-- Freeing pages that were free in a state `p₀` leaves only such pages free. -/
theorem Sound.freeAll {p₀ : BitmapPmm} (h : p.Sound) (hsame : SamePmm p₀ p) {l : List U32}
    (hl : ∀ a ∈ l, ∃ ri i, p₀.HasPage ri i a ∧ p₀.bit ri i = some false) :
    (l.foldl (fun p page => pmmBitmapFreePage page p) p).Sound ∧
      SamePmm p₀ (l.foldl (fun p page => pmmBitmapFreePage page p) p) ∧
      p.totalFree.toNat ≤ (l.foldl (fun p page => pmmBitmapFreePage page p) p).totalFree.toNat ∧
      (p₀.Distinct → (∀ ri i, p.bit ri i = some false → p₀.bit ri i = some false) →
        ∀ ri i, (l.foldl (fun p page => pmmBitmapFreePage page p) p).bit ri i = some false →
          p₀.bit ri i = some false) := by
  induction l generalizing p with
  | nil => exact ⟨h, hsame, le_rfl, fun _ hbits => hbits⟩
  | cons a l ih =>
    rw [List.foldl_cons]
    rcases h.free a with ⟨heq, -⟩ | ⟨ri, i, howns, hmarks⟩
    · rw [heq]
      exact ih h hsame fun b hb => hl b (List.mem_cons_of_mem a hb)
    · have hsound := h.marks hmarks
      obtain ⟨hsound', hsame', hle, hbits'⟩ := ih hsound (hsame.trans hmarks.same) fun b hb =>
        hl b (List.mem_cons_of_mem a hb)
      have hfree : p.totalFree.toNat ≤ (pmmBitmapFreePage a p).totalFree.toNat := by
        have hmax := h.totalFree_le
        rw [hmarks.totalFree, if_neg Bool.false_ne_true]
        bv_omega
      refine ⟨hsound', hsame', hfree.trans hle, fun hdistinct hbits => hbits' hdistinct ?_⟩
      intro rj j hbit
      rw [hmarks.bit] at hbit
      by_cases hpage : rj = ri ∧ j = i
      · -- the freed page is the one that was free
        obtain ⟨rk, k, hk, hkbit⟩ := hl a List.mem_cons_self
        obtain ⟨rfl, rfl⟩ := hdistinct _ _ _ _ a hk (hsame.symm.hasPage hmarks.hasPage)
        rwa [hpage.1, hpage.2]
      · rw [if_neg hpage] at hbit
        exact hbits rj j hbit

/-- **The self-test** leaves only pages free that were free, and at most four fewer. -/
theorem Sound.selftest (h : p.Sound) :
    (pmmSelftest p).Sound ∧ SamePmm p (pmmSelftest p) ∧
      p.totalFree.toNat ≤ (pmmSelftest p).totalFree.toNat + 4 ∧
      (p.Distinct → ∀ ri i, (pmmSelftest p).bit ri i = some false → p.bit ri i = some false) := by
  have hsame : p.Sound ∧ SamePmm p p ∧ p.totalFree.toNat ≤ p.totalFree.toNat + 4 ∧
      (p.Distinct → ∀ ri i, p.bit ri i = some false → p.bit ri i = some false) :=
    ⟨h, .refl p, Nat.le_add_right _ 4, fun _ _ _ hbit => hbit⟩
  rw [pmmSelftest]
  split
  · exact hsame
  split
  · exact hsame
  obtain ⟨hsound, hsame, hpages, hbits, hfree⟩ := h.selftestAlloc 4
  obtain ⟨hsound', hsame', hle, hbits'⟩ := hsound.freeAll hsame hpages
  exact ⟨hsound', hsame', by dsimp only; omega, fun hdistinct => hbits' hdistinct hbits⟩

end BitmapPmm

/-! ### Initialisation -/

/-- Every layout that the initialiser makes a region from has the shape of a region. -/
theorem bitmapLayouts_shape {entries : List Mb2MmapEntry} {kernel info : BootBlock} {l : RegionLayout}
    (hl : l ∈ bitmapLayouts entries kernel info) : l.Shape := by
  obtain ⟨-, e, -, -, hlayout, -⟩ := mem_take_filterMap.mp hl
  exact entryLayout_shape hlayout

/-- The statics with the regions of the layouts, before any page is reserved. -/
def initialPmm (memory : U32 → U8) (layouts : List RegionLayout) : BitmapPmm :=
  pmmRecomputeTotals ⟨layouts.map (RegionLayout.region memory), 0, 0#32, 0#32, true⟩

/-- **The stages of `pmm_bitmap_init`**, when there is a region: the counters agree with the bits, the
reservations of both blocks return, there is nothing to resynchronise, and the self-test runs. -/
theorem pmmBitmapInit_stages (memory : U32 → U8) {entries : List Mb2MmapEntry} {kernel info : BootBlock}
    (hne : bitmapLayouts entries kernel info ≠ []) :
    ∃ p₁ p₂, (initialPmm memory (bitmapLayouts entries kernel info)).Sound ∧
      bitmapMarkUsedRange kernel.start kernel.stop
        (initialPmm memory (bitmapLayouts entries kernel info)) = some p₁ ∧
      bitmapMarkUsedRange info.start info.stop p₁ = some p₂ ∧
      (initialPmm memory (bitmapLayouts entries kernel info)).Reserves p₂
        (fun x => kernel.Meets x ∨ info.Meets x) ∧
      pmmResyncFreeCount p₂ = p₂ ∧
      pmmBitmapInit memory entries kernel info = some (pmmSelftest p₂) := by
  have hinit : pmmBitmapInit memory entries kernel info =
      if (bitmapAddRegions memory kernel info entries []).length = 0 then some pmmResetState
      else (bitmapMarkUsedRange kernel.start kernel.stop (pmmRecomputeTotals
          ⟨bitmapAddRegions memory kernel info entries [], 0, 0#32, 0#32, true⟩)).bind fun p =>
        (bitmapMarkUsedRange info.start info.stop p).map fun p => pmmSelftest (pmmResyncFreeCount p) := rfl
  rw [bitmapAddRegions_nil, List.length_map, if_neg (mt List.length_eq_zero_iff.mp hne)] at hinit
  have hsound : (initialPmm memory (bitmapLayouts entries kernel info)).Sound := by
    refine pmmRecomputeTotals_sound (fun r hr => ?_) ?_ (by simpa using hne) ..
    · obtain ⟨l, hl, rfl⟩ := List.mem_map.mp hr
      exact ((bitmapLayouts_shape hl).region memory).1
    · rw [List.length_map]
      exact List.length_take_le ..
  obtain ⟨p₁, hkernel, hp₁⟩ := hsound.markUsedRange rfl kernel
  obtain ⟨p₂, hinfo, hp₂⟩ := hp₁.sound.markUsedRange hp₁.same.ready info
  refine ⟨p₁, p₂, hsound, hkernel, hinfo, hp₁.trans hp₂, hp₂.sound.resync, ?_⟩
  unfold initialPmm at hkernel
  rw [hinit, hkernel, Option.bind_some, hinfo, Option.map_some, hp₂.sound.resync]

/-- **`pmm_bitmap_init` returns**: without regions the allocator stays disabled; otherwise the pages of
both blocks are reserved, and the self-test runs. -/
theorem pmmBitmapInit_cases (memory : U32 → U8) (entries : List Mb2MmapEntry) (kernel info : BootBlock) :
    bitmapLayouts entries kernel info = [] ∧ pmmBitmapInit memory entries kernel info = some pmmResetState ∨
      ∃ p₀ p₁ : BitmapPmm,
        p₀.regions = (bitmapLayouts entries kernel info).map (RegionLayout.region memory) ∧
        p₀.Sound ∧ p₀.Reserves p₁ (fun x => kernel.Meets x ∨ info.Meets x) ∧
        pmmBitmapInit memory entries kernel info = some (pmmSelftest p₁) := by
  by_cases hnil : bitmapLayouts entries kernel info = []
  · left
    refine ⟨hnil, ?_⟩
    unfold pmmBitmapInit
    dsimp only [pmmResetState]
    rw [bitmapAddRegions_nil, hnil]
    rfl
  · obtain ⟨p₁, p₂, hsound, -, -, hres, -, hinit⟩ := pmmBitmapInit_stages memory hnil
    exact .inr ⟨_, p₂, rfl, hsound, hres, hinit⟩

end Microkernel.Pmm
