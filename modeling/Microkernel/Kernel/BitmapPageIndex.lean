import Microkernel.Kernel.PmmAccounts
import Microkernel.Lib.BlockIndex
import Microkernel.Pmm.BitmapMemoryRuns

/-! # The global page index of the bitmap allocator

`pmm_bitmap_page_addr` and `pmm_bitmap_page_is_used` number the pages of all regions, one region behind the
other. The two loops find the region by a running sum, the calls find it by an address; both speak of the
same pages.

* **`IndexesPages`** — what such a numbering must do: the addresses of different indices differ, every
  managed page has one, and the answer for an index is the bit of its page.
* **`bitmapPageLoop_eq`** — the running sum of the source against the blocks of `Lib/BlockIndex`.
* **`bitmap_indexesPages`** — it holds in every reachable state when no bitmap is stored above 1 GiB. From
  there on two regions may keep their bits in the same bytes, and one call changes two answers.
-/

namespace Microkernel.Kernel

open Pmm
open Pmm.BitmapPmm (Marks SamePmm HasPage)

/-! ### The two loops -/

/-- The loop over the regions: `f` on the region of `idx` and the index there, or the result behind the
loop. -/
def bitmapPageLoop {ρ β : Type} (pages : ρ → U32) (idx : U32) (f : ρ → ℕ → β) (d : β) : U32 → List ρ → β
  | _, [] => d
  | acc, r :: rs =>
      if idx < acc + pages r then f r (idx - acc).toNat
      else bitmapPageLoop pages idx f d (acc + pages r) rs

/-- `pmm_bitmap_page_addr(page_index)`. -/
def InMemory.pmmBitmapPageAddr (pageIndex : U32) (s : BitmapMemory) : U32 :=
  if ¬ s.ready then 0#32
  else bitmapPageLoop PmmRegion.pages pageIndex PmmRegion.indexToAddr 0#32 0#32 s.regions

/-- `pmm_bitmap_page_is_used(page_index)`. -/
def InMemory.pmmBitmapPageIsUsed (pageIndex : U32) (s : BitmapMemory) : ℤ :=
  if ¬ s.ready then -1
  else bitmapPageLoop PmmRegion.pages pageIndex (fun r i => if r.bitmapTest s.memory i then 1 else 0) (-1)
    0#32 s.regions

/-- `pmm_bitmap_page_addr`, on regions with bytes of their own. -/
def pmmBitmapPageAddr (pageIndex : U32) (p : BitmapPmm) : U32 :=
  if ¬ p.ready then 0#32
  else bitmapPageLoop BitmapRegion.pages pageIndex BitmapRegion.indexToAddr 0#32 0#32 p.regions

/-- `pmm_bitmap_page_is_used`, on regions with bytes of their own. -/
def pmmBitmapPageIsUsed (pageIndex : U32) (p : BitmapPmm) : ℤ :=
  if ¬ p.ready then -1
  else bitmapPageLoop BitmapRegion.pages pageIndex (fun r i => if r.bitmapTest i then 1 else 0) (-1) 0#32
    p.regions

/-! ### Pages by their index -/

/-- No page of a region has the address of a page of another region. -/
def DisjointRegions (s : BitmapMemory) : Prop :=
  s.regions.Pairwise fun r r' =>
    ∀ i < r.pages.toNat, ∀ j < r'.pages.toNat, r.indexToAddr i ≠ r'.indexToAddr j

/-- The answer of one index changes, that of the page at an address. -/
def ChangesAnswerAt (s s' : BitmapMemory) (a : U32) : Prop :=
  ∃ n < InMemory.pmmBitmapTotalPages s, InMemory.pmmBitmapPageAddr n s = a ∧
    ∀ m, InMemory.pmmBitmapPageIsUsed m s' ≠ InMemory.pmmBitmapPageIsUsed m s ↔ m = n

/-- **The index numbers the pages.** -/
structure IndexesPages (s : BitmapMemory) : Prop where
  /-- Each index in front of `pmm_bitmap_total_pages()` has a page of its own, and each page an index. -/
  bijective : Set.BijOn (fun n => InMemory.pmmBitmapPageAddr n s)
    {n | n < InMemory.pmmBitmapTotalPages s} {a | ∃ ri i, s.HasPage ri i a}
  /-- The answer is the bit of this page. -/
  isUsed : ∀ n < InMemory.pmmBitmapTotalPages s, ∀ ri i,
    s.HasPage ri i (InMemory.pmmBitmapPageAddr n s) →
    ∃ used, s.bit ri i = some used ∧ InMemory.pmmBitmapPageIsUsed n s = if used then 1 else 0
  /-- The answer 0 is given as often as there are free pages. -/
  count_free : Nat.count (fun n => InMemory.pmmBitmapPageIsUsed (BitVec.ofNat 32 n) s = 0)
    (InMemory.pmmBitmapTotalPages s).toNat = (InMemory.pmmBitmapFreePages s).toNat
  alloc : (InMemory.pmmBitmapAllocPage s).2 ≠ 0#32 →
    ChangesAnswerAt s (InMemory.pmmBitmapAllocPage s).1 (InMemory.pmmBitmapAllocPage s).2
  free : ∀ a, InMemory.pmmBitmapFreePage a s = s ∨
    ChangesAnswerAt s (InMemory.pmmBitmapFreePage a s) a

/-- One answer changes, of regions with bytes of their own. -/
def ChangesBitAt (p p' : BitmapPmm) (a : U32) : Prop :=
  ∃ n < pmmBitmapTotalPages p, pmmBitmapPageAddr n p = a ∧
    ∀ m, pmmBitmapPageIsUsed m p' ≠ pmmBitmapPageIsUsed m p ↔ m = n

section
variable {p p' : BitmapPmm} {n : U32} {ri i : ℕ} {a : U32}

/-- The numbers of pages of the regions. -/
def regionPages (p : BitmapPmm) : List ℕ := p.regions.map (·.pages.toNat)

/-- `pmm_bitmap_total_pages` is the sum over the regions. -/
theorem sum_regionPages (h : p.Sound) : (regionPages p).sum = (pmmBitmapTotalPages p).toNat := by
  unfold pmmBitmapTotalPages
  split
  · exact h.totalPages.symm
  · rename_i hready
    have hnil : p.regions = [] := by
      by_contra hne
      exact hready (h.ready.mpr hne)
    rw [regionPages, hnil]
    rfl

/-- **The running sum finds the region.** -/
theorem bitmapPageLoop_eq {ρ β : Type} {pages : ρ → U32} {f : ρ → ℕ → β} {d : β} {acc : U32} {l : List ρ}
    (hacc : acc ≤ n) (hsum : acc.toNat + (l.map fun r => (pages r).toNat).sum < 2 ^ 32) :
    bitmapPageLoop pages n f d acc l =
      atBlock (fun r => (pages r).toNat) f d l (n.toNat - acc.toNat) := by
  induction l generalizing acc with
  | nil => rfl
  | cons r l ih =>
    rw [List.map_cons, List.sum_cons] at hsum
    rw [BitVec.le_def] at hacc
    have hnext : (acc + pages r).toNat = acc.toNat + (pages r).toNat := by
      rw [BitVec.toNat_add, Nat.mod_eq_of_lt (by omega)]
    have hiff : n < acc + pages r ↔ n.toNat - acc.toNat < (pages r).toNat := by
      rw [BitVec.lt_def, hnext]
      omega
    rw [bitmapPageLoop, atBlock]
    by_cases hlt : n < acc + pages r
    · rw [if_pos hlt, if_pos (hiff.mp hlt), BitVec.toNat_sub_of_le (BitVec.le_def.mpr hacc)]
    · rw [if_neg hlt, if_neg (mt hiff.mpr hlt), ih (BitVec.not_lt.mp hlt) (by omega), hnext, Nat.sub_sub]

/-- Both loops, on the statics. -/
theorem pageLoop_eq {β : Type} (h : p.Sound) (f : BitmapRegion → ℕ → β) (d : β) (n : U32) :
    (if ¬ p.ready then d else bitmapPageLoop BitmapRegion.pages n f d 0#32 p.regions) =
      atBlock (·.pages.toNat) f d p.regions n.toNat := by
  by_cases hready : p.ready = true
  · have hlt : (p.regions.map (·.pages.toNat)).sum < 2 ^ 32 := by
      rw [← h.totalPages]
      exact p.totalPages.isLt
    rw [if_neg (not_not.mpr hready)]
    exact bitmapPageLoop_eq (BitVec.le_def.mpr (Nat.zero_le _)) ((Nat.zero_add _).symm ▸ hlt)
  · have hnil : p.regions = [] := by
      by_contra hne
      exact hready (h.ready.mpr hne)
    rw [if_pos hready, hnil]
    rfl

/-- **An index in front of the end is the index of a page**: its address, and the answer for it. -/
theorem exists_page (h : p.Sound) (hn : n < pmmBitmapTotalPages p) :
    ∃ ri i, blockOf (regionPages p) n.toNat = some (ri, i) ∧
      p.HasPage ri i (pmmBitmapPageAddr n p) ∧
      ∃ used, p.bit ri i = some used ∧ pmmBitmapPageIsUsed n p = if used then 1 else 0 := by
  rw [BitVec.lt_def, ← sum_regionPages h] at hn
  obtain ⟨ri, i, hblock⟩ := exists_blockOf_iff.mpr hn
  obtain ⟨s, hs, hi⟩ := lt_of_blockOf hblock
  rw [regionPages, List.getElem?_map] at hs
  obtain ⟨r, hr, rfl⟩ := Option.map_eq_some_iff.mp hs
  refine ⟨ri, i, hblock, ⟨r, hr, hi, ?_⟩, r.bitmapTest i, ?_, ?_⟩
  · exact ((pageLoop_eq h _ _ n).trans (atBlock_of_blockOf hblock hr)).symm
  · rw [BitmapPmm.bit, hr]
    rfl
  · exact (pageLoop_eq h _ _ n).trans (atBlock_of_blockOf hblock hr)

/-- Behind the end the answer is -1. -/
theorem isUsed_of_le (h : p.Sound) (hn : pmmBitmapTotalPages p ≤ n) : pmmBitmapPageIsUsed n p = -1 := by
  refine (pageLoop_eq h _ _ n).trans (atBlock_of_none ?_)
  rw [BitVec.le_def, ← sum_regionPages h] at hn
  by_contra hne
  obtain ⟨q, hq⟩ := Option.ne_none_iff_exists'.mp hne
  exact absurd (exists_blockOf_iff.mp ⟨q.1, q.2, hq⟩) (not_lt.mpr hn)

/-- **Each page has an index.** -/
theorem exists_index (h : p.Sound) (hpage : p.HasPage ri i a) :
    ∃ n < pmmBitmapTotalPages p, blockOf (regionPages p) n.toNat = some (ri, i) ∧
      pmmBitmapPageAddr n p = a := by
  obtain ⟨r, hr, hi, rfl⟩ := hpage
  have hs : (regionPages p)[ri]? = some r.pages.toNat := by
    rw [regionPages, List.getElem?_map, hr]
    rfl
  obtain ⟨n, hn, hblock⟩ := exists_position hs hi
  rw [sum_regionPages h] at hn
  have hnat : (BitVec.ofNat 32 n).toNat = n := by
    rw [BitVec.toNat_ofNat, Nat.mod_eq_of_lt (hn.trans (BitVec.isLt _))]
  rw [← hnat] at hblock
  exact ⟨BitVec.ofNat 32 n, by rwa [BitVec.lt_def, hnat], hblock,
    (pageLoop_eq h _ _ _).trans (atBlock_of_blockOf hblock hr)⟩

/-- The calls do not change the regions. -/
theorem regionPages_same (h : SamePmm p p') : regionPages p' = regionPages p := by
  unfold regionPages
  have hsame := h.regions
  generalize p.regions = l at hsame
  generalize p'.regions = l' at hsame
  induction hsame with
  | nil => rfl
  | cons hr _ ih => rw [List.map_cons, List.map_cons, hr.pages, ih]

/-- **Marking a page changes its answer alone.** -/
theorem changesBitAt_of_marks (h : p.Sound) {used : Bool} (hmarks : Marks used p p' ri i a) :
    ChangesBitAt p p' a := by
  have h' := h.marks hmarks
  have hpages := regionPages_same hmarks.same
  have htotal : pmmBitmapTotalPages p' = pmmBitmapTotalPages p := by
    rw [← BitVec.toNat_inj, ← sum_regionPages h, ← sum_regionPages h', hpages]
  obtain ⟨n, hn, hblock, haddr⟩ := exists_index h hmarks.hasPage
  refine ⟨n, hn, haddr, fun m => ?_⟩
  by_cases hm : m < pmmBitmapTotalPages p
  · obtain ⟨rj, j, hblock', -, b, hbit, hused⟩ := exists_page h hm
    obtain ⟨rj', j', hblock'', -, b', hbit', hused'⟩ := exists_page h' (htotal ▸ hm)
    rw [hpages, hblock'] at hblock''
    obtain ⟨rfl, rfl⟩ := Prod.mk.inj (Option.some.inj hblock'')
    rw [hused, hused']
    rw [hmarks.bit] at hbit'
    by_cases hpage : rj = ri ∧ j = i
    · obtain ⟨rfl, rfl⟩ := hpage
      rw [if_pos ⟨rfl, rfl⟩] at hbit'
      have hmn : m = n := BitVec.eq_of_toNat_eq (blockOf_inj hblock' hblock)
      have hbefore := hmarks.bit_before.symm.trans hbit
      obtain rfl := Option.some.inj hbit'
      obtain rfl := Option.some.inj hbefore
      exact iff_of_true (by cases used <;> decide) hmn
    · rw [if_neg hpage, hbit] at hbit'
      obtain rfl := Option.some.inj hbit'
      refine iff_of_false (not_not.mpr rfl) ?_
      rintro rfl
      obtain ⟨rfl, rfl⟩ := Prod.mk.inj (Option.some.inj (hblock.symm.trans hblock'))
      exact hpage ⟨rfl, rfl⟩
  · rw [BitVec.not_lt] at hm
    rw [isUsed_of_le h hm, isUsed_of_le h' (htotal ▸ hm)]
    refine iff_of_false (not_not.mpr rfl) ?_
    rintro rfl
    exact absurd hn (BitVec.not_lt.mpr hm)

/-- The answers 0 are as many as the free pages. -/
theorem count_isUsed (h : p.Sound) :
    Nat.count (fun n => pmmBitmapPageIsUsed (BitVec.ofNat 32 n) p = 0) (pmmBitmapTotalPages p).toNat =
      (pmmBitmapFreePages p).toNat := by
  have hloop : ∀ n < (pmmBitmapTotalPages p).toNat, pmmBitmapPageIsUsed (BitVec.ofNat 32 n) p =
      atBlock (·.pages.toNat) (fun r i => if r.bitmapTest i then 1 else 0) (-1) p.regions n := by
    intro n hn
    have hnat : (BitVec.ofNat 32 n).toNat = n := by
      rw [BitVec.toNat_ofNat, Nat.mod_eq_of_lt (hn.trans (BitVec.isLt _))]
    have := pageLoop_eq h (fun r i => if r.bitmapTest i then (1 : ℤ) else 0) (-1) (BitVec.ofNat 32 n)
    rwa [hnat] at this
  rw [pmmBitmapFreePages_eq h, h.totalFree]
  calc Nat.count (fun n => pmmBitmapPageIsUsed (BitVec.ofNat 32 n) p = 0) (pmmBitmapTotalPages p).toNat
      = Nat.count (fun n => atBlock (·.pages.toNat) (fun r i => if r.bitmapTest i then (1 : ℤ) else 0)
          (-1) p.regions n = 0) (regionPages p).sum := by
        rw [sum_regionPages h]
        simp only [Nat.count_eq_card_filter_range]
        refine congrArg Finset.card (Finset.filter_congr fun n hn => ?_)
        rw [hloop n (Finset.mem_range.mp hn)]
    _ = (p.regions.map fun r => Nat.count
          (fun i => (if r.bitmapTest i then (1 : ℤ) else 0) = 0) r.pages.toNat).sum :=
        count_atBlock (fun x : ℤ => x = 0) p.regions
    _ = (p.regions.map (·.free.toNat)).sum := by
        refine congrArg List.sum (List.map_congr_left fun r hr => ?_)
        rw [(h.regions r hr).free, BitmapRegion.zeroBits]
        simp only [Nat.count_eq_card_filter_range]
        refine congrArg Finset.card (Finset.filter_congr fun i _ => ?_)
        cases r.bitmapTest i <;> decide

/-- Every call keeps the counters right. -/
theorem sound_of_call {call : PmmCall} {answer : U32} (h : p.Sound)
    (hcall : bitmapCall p call = some (p', answer)) : p'.Sound := by
  cases call with
  | allocPage =>
    have hp' : (pmmBitmapAllocPage p).1 = p' := congrArg Prod.fst (Option.some.inj hcall)
    rw [← hp']
    rcases h.alloc with ⟨heq, -⟩ | ⟨ri, i, hmarks⟩
    · rwa [heq]
    · exact h.marks hmarks
  | freePage page =>
    have hp' : pmmBitmapFreePage page p = p' := congrArg Prod.fst (Option.some.inj hcall)
    rw [← hp']
    rcases h.free page with ⟨heq, -⟩ | ⟨ri, i, -, hmarks⟩
    · rwa [heq]
    · exact h.marks hmarks

/-- Every call leaves the regions where they are. -/
theorem same_of_call {call : PmmCall} {answer : U32} (h : p.Sound)
    (hcall : bitmapCall p call = some (p', answer)) : SamePmm p p' := by
  cases call with
  | allocPage =>
    have hp' : (pmmBitmapAllocPage p).1 = p' := congrArg Prod.fst (Option.some.inj hcall)
    rw [← hp']
    rcases h.alloc with ⟨heq, -⟩ | ⟨ri, i, hmarks⟩
    · rw [heq]
      exact .refl p
    · exact hmarks.same
  | freePage page =>
    have hp' : pmmBitmapFreePage page p = p' := congrArg Prod.fst (Option.some.inj hcall)
    rw [← hp']
    rcases h.free page with ⟨heq, -⟩ | ⟨ri, i, -, hmarks⟩
    · rw [heq]
      exact .refl p
    · exact hmarks.same

/-- Each page is at one index. -/
theorem bijOn_pageAddr (h : p.Sound) (hdistinct : p.Distinct) :
    Set.BijOn (fun n => pmmBitmapPageAddr n p) {n | n < pmmBitmapTotalPages p}
      {a | ∃ ri i, p.HasPage ri i a} := by
  refine ⟨fun n hn => ?_, fun n hn m hm heq => ?_, fun a ha => ?_⟩
  · obtain ⟨ri, i, -, hpage, -⟩ := exists_page h hn
    exact ⟨ri, i, hpage⟩
  · -- one address is one page, which has one index
    obtain ⟨ri, i, hblock, hpage, -⟩ := exists_page h hn
    obtain ⟨rj, j, hblock', hpage', -⟩ := exists_page h hm
    have heq : pmmBitmapPageAddr n p = pmmBitmapPageAddr m p := heq
    obtain ⟨rfl, rfl⟩ := hdistinct _ _ _ _ _ hpage (heq ▸ hpage')
    exact BitVec.eq_of_toNat_eq (blockOf_inj hblock hblock')
  · obtain ⟨ri, i, hpage⟩ := ha
    obtain ⟨n, hn, -, haddr⟩ := exists_index h hpage
    exact ⟨n, hn, haddr⟩

end

/-! ### In memory -/

section
variable {s s₀ : BitmapMemory} {n : U32} {a : U32}

/-- The loop over the regions in memory is the loop over the regions as they are seen. -/
theorem pageLoop_view {β : Type} (h : s.view.Sound) {f : PmmRegion → ℕ → β} {g : BitmapRegion → ℕ → β}
    (hfg : ∀ r ∈ s.regions, ∀ i < r.pages.toNat, f r i = g (r.view s.memory) i) (d : β) (n : U32) :
    (if ¬ s.ready then d else bitmapPageLoop PmmRegion.pages n f d 0#32 s.regions) =
      if ¬ s.view.ready then d else bitmapPageLoop BitmapRegion.pages n g d 0#32 s.view.regions := by
  have hready : s.view.ready = s.ready := rfl
  rw [hready]
  refine if_congr Iff.rfl rfl ?_
  have hsum : (s.view.regions.map (·.pages.toNat)).sum < 2 ^ 32 := by
    rw [← h.totalPages]
    exact s.totalPages.isLt
  have hsum' : (s.regions.map fun r => r.pages.toNat).sum < 2 ^ 32 := by
    have hmap : s.view.regions.map (·.pages.toNat) = s.regions.map fun r => r.pages.toNat :=
      List.map_map
    rwa [hmap] at hsum
  rw [bitmapPageLoop_eq (BitVec.le_def.mpr (Nat.zero_le _)) ((Nat.zero_add _).symm ▸ hsum'),
    bitmapPageLoop_eq (BitVec.le_def.mpr (Nat.zero_le _)) ((Nat.zero_add _).symm ▸ hsum)]
  refine (atBlock_congr hfg _).trans ?_
  exact (@atBlock_map _ _ _ (fun r : BitmapRegion => r.pages.toNat) g _ (·.view s.memory)
    s.regions _).symm

/-- `pmm_bitmap_page_addr` reads no bitmap, so it is the one on the view. -/
theorem pageAddr_view (h : s.view.Sound) (n : U32) :
    InMemory.pmmBitmapPageAddr n s = pmmBitmapPageAddr n s.view :=
  pageLoop_view (g := BitmapRegion.indexToAddr) h (fun _ _ _ _ => rfl) 0#32 n

/-- `pmm_bitmap_page_is_used` reads the bitmap that the view shows. -/
theorem isUsed_view (hs : s.Reaches) (h : s.view.Sound) (n : U32) :
    InMemory.pmmBitmapPageIsUsed n s = pmmBitmapPageIsUsed n s.view :=
  pageLoop_view (g := fun r i => if r.bitmapTest i then 1 else 0) h (fun r hr i hi => by
    rw [PmmRegion.bitmapTest_view (hi.trans_le (hs.regions r hr).pages_le)]) (-1) n

/-- Marking a page changes its answer alone. -/
theorem changesAnswerAt_of_marks {s' : BitmapMemory} {used : Bool} {ri i : ℕ} (hs : s.Reaches)
    (h : s.view.Sound) (hs' : s'.Reaches) (hmarks : Marks used s.view s'.view ri i a) :
    ChangesAnswerAt s s' a := by
  obtain ⟨n, hn, haddr, hiff⟩ := changesBitAt_of_marks h hmarks
  refine ⟨n, hn, (pageAddr_view h n).trans haddr, fun m => ?_⟩
  rw [isUsed_view hs' (h.marks hmarks), isUsed_view hs h]
  exact hiff m

/-- **What the counters and bits being right says of the index.** -/
theorem indexesPages_of_sound (hs : s.Reaches) (h : s.view.Sound) (hdistinct : s.view.Distinct) :
    IndexesPages s := by
  have hpages : {a | ∃ ri i, s.HasPage ri i a} = {a | ∃ ri i, s.view.HasPage ri i a} :=
    Set.ext fun a => exists_congr fun ri => exists_congr fun i => BitmapMemory.hasPage_iff.symm
  refine ⟨?_, fun n hn ri i hpage => ?_, ?_, fun hne => ?_, fun a => ?_⟩
  · rw [hpages, funext fun n => pageAddr_view h n]
    exact bijOn_pageAddr h hdistinct
  · rw [pageAddr_view h] at hpage
    obtain ⟨rj, j, -, hpage', hused⟩ := exists_page h hn
    obtain ⟨rfl, rfl⟩ := hdistinct _ _ _ _ _ (BitmapMemory.hasPage_iff.mpr hpage) hpage'
    rwa [(hs.hasBit hpage).bit_view, ← isUsed_view hs h] at hused
  · simp only [isUsed_view hs h]
    exact count_isUsed h
  · obtain ⟨hstep, hanswer⟩ := hs.alloc_steps
    rw [hanswer] at hne ⊢
    rcases h.alloc with ⟨heq, -⟩ | ⟨ri, i, hmarks⟩
    · rw [heq] at hne
      exact absurd rfl hne
    · exact changesAnswerAt_of_marks hs h (hstep.reaches hs) (hstep.view.symm ▸ hmarks)
  · have hstep := hs.free_steps a
    rcases h.free a with ⟨heq, -⟩ | ⟨ri, i, -, hmarks⟩
    · exact .inl (hs.free_eq heq)
    · exact .inr (changesAnswerAt_of_marks hs h (hstep.reaches hs) (hstep.view.symm ▸ hmarks))

end

/-! ### Runs -/

section
variable {memory : PhysicalMemory} {entries : List Mb2MmapEntry} {kernel info : BootBlock}
  {s s₀ : BitmapMemory} {layouts : List RegionLayout}

/-- The calls leave every region where it is. -/
theorem reachable_headers (h : (bitmapMemoryMachine s₀).Reachable s) :
    List.Forall₂ PmmRegion.SameHeader s₀.regions s.regions := by
  refine h.invariant (I := fun s => List.Forall₂ PmmRegion.SameHeader s₀.regions s.regions)
    (InMemory.sameHeader_self _) fun q call hq => ?_
  cases call with
  | allocPage => exact ⟨_, _, rfl, InMemory.sameHeader_trans hq (InMemory.alloc_headers q)⟩
  | freePage page => exact ⟨_, _, rfl, InMemory.sameHeader_trans hq (InMemory.free_headers page q)⟩

/-- The address of a page of a layout that ends in the address space. -/
theorem regionOf_indexToAddr {l : RegionLayout} {r : PmmRegion} {i : ℕ}
    (hsame : (InMemory.regionOf l).SameHeader r)
    (hfits : l.managedStart.toNat + l.pages.toNat * 4096 < 2 ^ 32) (hi : i < l.pages.toNat) :
    (r.indexToAddr i).toNat = l.managedStart.toNat + i * 4096 := by
  have hbase : r.base = l.managedStart := by rw [hsame]; rfl
  rw [PmmRegion.indexToAddr, hbase, BitVec.toNat_add, BitVec.toNat_mul, BitVec.toNat_ofNat,
    show pageSize.toNat = 4096 from rfl]
  omega

/-- Regions without a common page are regions of layouts that lie apart. -/
theorem DisjointRegions.layoutsApart (h : DisjointRegions s)
    (hheaders : List.Forall₂ PmmRegion.SameHeader (layouts.map InMemory.regionOf) s.regions)
    (hlayouts : ∀ l ∈ layouts, l.Shape ∧ l.managedStart.toNat + l.pages.toNat * 4096 < 2 ^ 32) :
    LayoutsApart layouts := by
  unfold DisjointRegions at h
  unfold LayoutsApart
  generalize s.regions = regions at h hheaders
  induction layouts generalizing regions with
  | nil => exact .nil
  | cons l layouts ih =>
    cases hheaders with
    | @cons _ r _ rs hr hrs =>
      rw [List.pairwise_cons] at h ⊢
      rw [List.forall_mem_cons] at hlayouts
      refine ⟨fun l' hl' => ?_, ih hlayouts.2 rs h.2 hrs⟩
      obtain ⟨r', hr', hsame'⟩ := BitmapPmm.forall₂_mem hrs (List.mem_map_of_mem hl')
      obtain ⟨hshape, hfits⟩ := hlayouts.1
      obtain ⟨hshape', hfits'⟩ := hlayouts.2 l' hl'
      have hpages : r.pages = l.pages := by rw [hr]; rfl
      have hpages' : r'.pages = l'.pages := by rw [hsame']; rfl
      have hdvd := hshape.start_dvd
      have hdvd' := hshape'.start_dvd
      have hpos := hshape.bitmapPages_lt
      have hpos' := hshape'.bitmapPages_lt
      by_contra hover
      rw [not_or] at hover
      -- the first page of the one that starts later is a page of both
      by_cases hle : l.managedStart.toNat ≤ l'.managedStart.toNat
      · refine h.1 r' hr' ((l'.managedStart.toNat - l.managedStart.toNat) / 4096) (by rw [hpages]; omega) 0
          (by rw [hpages']; omega) (BitVec.eq_of_toNat_eq ?_)
        rw [regionOf_indexToAddr hr hfits (by omega), regionOf_indexToAddr hsame' hfits' (by omega)]
        omega
      · refine h.1 r' hr' 0 (by rw [hpages]; omega) ((l.managedStart.toNat - l'.managedStart.toNat) / 4096)
          (by rw [hpages']; omega) (BitVec.eq_of_toNat_eq ?_)
        rw [regionOf_indexToAddr hr hfits (by omega), regionOf_indexToAddr hsame' hfits' (by omega)]
        omega

/-- And the other way round. -/
theorem disjointRegions_of_layoutsApart (h : LayoutsApart layouts)
    (hheaders : List.Forall₂ PmmRegion.SameHeader (layouts.map InMemory.regionOf) s.regions)
    (hfits : ∀ l ∈ layouts, l.managedStart.toNat + l.pages.toNat * 4096 < 2 ^ 32) : DisjointRegions s := by
  unfold LayoutsApart at h
  unfold DisjointRegions
  generalize s.regions = regions at hheaders
  induction layouts generalizing regions with
  | nil =>
    cases hheaders
    exact .nil
  | cons l layouts ih =>
    cases hheaders with
    | @cons _ r _ rs hr hrs =>
      rw [List.pairwise_cons] at h ⊢
      rw [List.forall_mem_cons] at hfits
      refine ⟨fun r' hr' i hi j hj heq => ?_, ih h.2 hfits.2 rs hrs⟩
      obtain ⟨x, hx, hsame'⟩ := BitmapPmm.forall₂_mem hrs.flip hr'
      obtain ⟨l', hl', rfl⟩ := List.mem_map.mp hx
      have hsame' : (InMemory.regionOf l').SameHeader r' := hsame'
      have hpages : r.pages = l.pages := by rw [hr]; rfl
      have hpages' : r'.pages = l'.pages := by rw [hsame']; rfl
      have hapart := h.1 l' hl'
      rw [hpages] at hi
      rw [hpages'] at hj
      have hnum := congrArg BitVec.toNat heq
      rw [regionOf_indexToAddr hr hfits.1 hi, regionOf_indexToAddr hsame' (hfits.2 l' hl') hj] at hnum
      omega

/-- **In every reachable state with disjoint regions the index numbers the pages**, when every bitmap is
stored between 1 MiB and 1 GiB. -/
theorem bitmap_indexesPages (hinit : InMemory.pmmBitmapInit memory entries kernel info = some s₀)
    (hreach : (bitmapMemoryMachine s₀).Reachable s) (hdisjoint : DisjointRegions s)
    (hlow : StoresLow entries kernel info) : IndexesPages s := by
  have hheaders := InMemory.sameHeader_trans (InMemory.init_headers hinit) (reachable_headers hreach)
  have hlayouts := hdisjoint.layoutsApart hheaders fun l hl => ⟨bitmapLayouts_shape hl, (hlow.fits hl).1⟩
  obtain ⟨s', hinit', hview, hreaches⟩ := pmmBitmapInit_view memory hlow hlayouts
  obtain rfl := Option.some.inj (hinit.symm.trans hinit')
  obtain ⟨p, hp, hsound, hplaced, -⟩ := pmmBitmapInit_regions (fun _ => 0#8) entries kernel info
  obtain rfl := Option.some.inj (hview.symm.trans hp)
  have hapart : s₀.view.Apart := apart_of_layouts (fun l hl => hlow.fits hl) hlayouts hplaced
  -- the run, as it is seen
  obtain ⟨hs, hsound', happart'⟩ : s.Reaches ∧ s.view.Sound ∧ s.view.Apart := by
    refine hreach.invariant (I := fun s => s.Reaches ∧ s.view.Sound ∧ s.view.Apart)
      ⟨hreaches, hsound, hapart⟩ fun q call ⟨hq, hqsound, hqapart⟩ => ?_
    obtain ⟨q', answer, hcall, hcall', hq'⟩ := hq.call call
    exact ⟨q', answer, hcall, hq', sound_of_call hqsound hcall', hqapart.of_same (same_of_call hqsound hcall')⟩
  exact indexesPages_of_sound hs hsound' happart'.distinct

/-- With memory in two ranges, after an allocation. -/
theorem bitmap_indexesPages_gap :
    ∃ s₀ s, InMemory.pmmBitmapInit (fun _ => 0#8) Pmm.gapMap lowKernel lowInfo = some s₀ ∧
      (bitmapMemoryMachine s₀).run [.allocPage, .allocPage, .freePage 0x200000#32] =
        some (s, [(InMemory.pmmBitmapAllocPage s₀).2,
          (InMemory.pmmBitmapAllocPage (InMemory.pmmBitmapAllocPage s₀).1).2, 0#32]) ∧ IndexesPages s := by
  have hlow : StoresLow Pmm.gapMap lowKernel lowInfo := by decide
  have hlayouts := hlow.layoutsApart Pmm.gapMap_disjoint Pmm.gapMap_starts
  obtain ⟨s₀, hinit, -, -⟩ := pmmBitmapInit_view (fun _ => 0#8) hlow hlayouts
  refine ⟨s₀, InMemory.pmmBitmapFreePage 0x200000#32
    (InMemory.pmmBitmapAllocPage (InMemory.pmmBitmapAllocPage s₀).1).1, hinit, rfl,
    bitmap_indexesPages hinit ⟨[.allocPage, .allocPage, .freePage 0x200000#32], _, rfl⟩ ?_ hlow⟩
  exact disjointRegions_of_layoutsApart hlayouts (InMemory.sameHeader_trans (InMemory.init_headers hinit)
    (InMemory.sameHeader_trans (InMemory.alloc_headers s₀)
      (InMemory.sameHeader_trans (InMemory.alloc_headers _) (InMemory.free_headers _ _))))
    fun l hl => (hlow.fits hl).1

/-- With two bitmaps in one, one allocation changes two answers, and the zeros are not the free pages. -/
theorem bitmap_indexesPages_alias :
    ¬ ∀ memory entries kernel info s₀ s, InMemory.pmmBitmapInit memory entries kernel info = some s₀ →
      (bitmapMemoryMachine s₀).Reachable s → DisjointRegions s → IndexesPages s := by
  intro hall
  obtain ⟨s₀, hinit, hregions, hcount, hfree⟩ : ∃ s₀,
      InMemory.pmmBitmapInit (fun _ => 0#8) aliasMap smallKernel wideInfo = some s₀ ∧
      DisjointRegions (InMemory.pmmBitmapAllocPage s₀).1 ∧
      (∀ n < 16, InMemory.pmmBitmapPageIsUsed (BitVec.ofNat 32 n) (InMemory.pmmBitmapAllocPage s₀).1 = 1) ∧
      InMemory.pmmBitmapFreePages (InMemory.pmmBitmapAllocPage s₀).1 = 1#32 ∧
        InMemory.pmmBitmapTotalPages (InMemory.pmmBitmapAllocPage s₀).1 = 16#32 := by
    refine ⟨_, rfl, ?_, ?_, ?_, ?_⟩
    · unfold DisjointRegions
      decide +kernel
    · decide +kernel
    · decide +kernel
    · decide +kernel
  have hcount' := (hall (fun _ => 0#8) aliasMap smallKernel wideInfo s₀ (InMemory.pmmBitmapAllocPage s₀).1
    hinit ⟨[.allocPage], [(InMemory.pmmBitmapAllocPage s₀).2], rfl⟩ hregions).count_free
  rw [hfree.1, hfree.2, Nat.count_iff_forall_not.mpr fun n hn => by rw [hcount n hn]; decide] at hcount'
  exact absurd hcount' (by decide)

end

end Microkernel.Kernel
