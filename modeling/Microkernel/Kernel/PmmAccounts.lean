import Microkernel.Kernel.PmmBackends
import Microkernel.Pmm.BuddyTags
import Microkernel.Vmm.FrameAccount

/-! # Both backends keep exact accounts

`pmm_alloc_page` and `pmm_free_page` change one page of the zone from free to used or back, and
`pmm_free_pages` changes by one, whichever backend is registered.

This is what the virtual memory manager is verified against: an allocator with exact accounts counts every
frame that it gives and takes.

* **`bitmap_alloc_account`, `bitmap_free_account`** — for the bitmap allocator, from its counters agreeing
  with its bits.
* **`buddy_alloc_account`** — for the buddy allocator, from the tiling of its zone: a page that is held is
  a block of order 0.
* **`pmmAccounts`** — both, as one structure over the state of whichever is registered.
-/

namespace Microkernel.Kernel

open Pmm Vmm

/-- `pmm_bitmap_free_pages()`. -/
def pmmBitmapFreePages (p : BitmapPmm) : U32 := if p.ready then p.totalFree else 0#32

/-- `pmm_free_pages()`. -/
def pmmFreePages : PmmState → U32
  | .bitmap p => pmmBitmapFreePages p
  | .buddy c => pmmBuddyFreePages c.state

/-! ### The bitmap allocator -/

section Bitmap
variable {p p' p₀ : BitmapPmm} {g : U32}

/-- An allocator that is not ready has no free page. -/
theorem pmmBitmapFreePages_eq (h : p.Sound) : pmmBitmapFreePages p = p.totalFree := by
  unfold pmmBitmapFreePages
  split
  · rfl
  · rename_i hready
    have hnil : p.regions = [] := by
      by_contra hne
      exact hready (h.ready.mpr hne)
    apply BitVec.eq_of_toNat_eq
    rw [h.totalFree, hnil]
    rfl

/-- Marking a page used or free changes what is in use by this page. -/
theorem marks_inUse {used : Bool} {ri i : ℕ} (h : BitmapPmm.Marks used p p' ri i g) (hapart : p.Apart)
    (f : U32) :
    (PmmState.bitmap p').InUse f ↔
      if f = g then used = true else (PmmState.bitmap p).InUse f := by
  have hpage := h.hasPage
  have hsplit : ∀ rj j, p'.HasPage rj j f ∧ p'.bit rj j = some false ↔
      p.HasPage rj j f ∧ (if rj = ri ∧ j = i then some used else p.bit rj j) = some false := by
    intro rj j
    rw [h.bit]
    exact and_congr_left fun _ => ⟨h.same.symm.hasPage, h.same.hasPage⟩
  simp only [PmmState.InUse, hsplit]
  split
  · rename_i hfg
    subst hfg
    constructor
    · intro hno
      by_contra hused
      exact hno ⟨ri, i, hpage, by rw [if_pos ⟨rfl, rfl⟩, eq_false_of_ne_true hused]⟩
    · rintro hused ⟨rj, j, hpage', hbit⟩
      rw [if_pos (hapart.distinct _ _ _ _ _ hpage' hpage), hused] at hbit
      exact absurd hbit (by simp)
  · rename_i hfg
    have hne : ∀ rj j, p.HasPage rj j f → ¬ (rj = ri ∧ j = i) := by
      rintro rj j ⟨r, hr, -, hf⟩ ⟨rfl, rfl⟩
      obtain ⟨r', hr', -, hg⟩ := hpage
      obtain rfl := Option.some.inj (hr.symm.trans hr')
      exact hfg (hf.symm.trans hg)
    refine not_congr (exists_congr fun rj => exists_congr fun j => and_congr_right fun hpage' => ?_)
    rw [if_neg (hne rj j hpage')]

/-- **An allocation of the bitmap allocator** puts the page into use, and one page less is free. -/
theorem bitmap_alloc_account (h : (PmmState.bitmap p).InZone (.bitmap p₀)) :
    (∀ f, (PmmState.bitmap (pmmBitmapAllocPage p).1).InUse f ↔
      (PmmState.bitmap p).InUse f ∨ (pmmBitmapAllocPage p).2 ≠ 0#32 ∧ f = (pmmBitmapAllocPage p).2) ∧
      (pmmBitmapFreePages (pmmBitmapAllocPage p).1).toNat +
        (if (pmmBitmapAllocPage p).2 = 0#32 then 0 else 1) = (pmmBitmapFreePages p).toNat := by
  obtain ⟨hsound, hapart, -⟩ := h
  rcases hsound.alloc with ⟨heq, -⟩ | ⟨ri, i, hmarks⟩
  · rw [heq]
    simp
  have hpage := hmarks.hasPage
  have hne := hapart.ne_zero hpage
  have hnot : (PmmState.bitmap p).InUse (pmmBitmapAllocPage p).2 → False := fun hno =>
    hno ⟨ri, i, hpage, hmarks.bit_before⟩
  refine ⟨fun f => ?_, ?_⟩
  · rw [marks_inUse hmarks hapart]
    by_cases hf : f = (pmmBitmapAllocPage p).2
    · simp [hf, hne]
    · simp [hf]
  · have hfree : p.totalFree ≠ 0#32 := by
      refine hsound.exists_isFree_iff.mp ⟨ri, i, ⟨_, hpage⟩, hmarks.bit_before⟩
    rw [pmmBitmapFreePages_eq hsound, pmmBitmapFreePages_eq (hsound.marks hmarks), hmarks.totalFree,
      if_pos rfl, if_neg hne]
    bv_omega

/-- **A free** of a page in use takes it out of use, and one page more is free. -/
theorem bitmap_free_account (h : (PmmState.bitmap p).InZone (.bitmap p₀))
    (hg : (PmmZone.bitmap p₀).HasPage g) (huse : (PmmState.bitmap p).InUse g) :
    (∀ f, (PmmState.bitmap (pmmBitmapFreePage g p)).InUse f ↔
      (PmmState.bitmap p).InUse f ∧ f ≠ g) ∧
      (pmmBitmapFreePages (pmmBitmapFreePage g p)).toNat = (pmmBitmapFreePages p).toNat + 1 := by
  obtain ⟨hsound, hapart, hsame⟩ := h
  obtain ⟨ri, i, hpage₀⟩ := hg
  have hpage := hsame.hasPage hpage₀
  have hne := hapart.ne_zero hpage
  have halign : g.PageAligned := by
    obtain ⟨r, hr, hi, haddr⟩ := hpage
    rw [← haddr]
    exact (hsound.regions r (List.mem_of_getElem? hr)).toShape.indexToAddr_aligned hi
  rcases hsound.free g with ⟨-, hfree⟩ | ⟨rj, j, -, hmarks⟩
  · exact absurd ⟨ri, i, hpage, hfree ri i hne halign (hapart.owns hsound hpage)⟩ huse
  refine ⟨fun f => ?_, ?_⟩
  · rw [marks_inUse hmarks hapart]
    by_cases hf : f = g
    · simp [hf]
    · simp [hf]
  · have hle := (hsound.marks hmarks).totalFree_le
    have hle' := hsound.totalFree_le
    rw [pmmBitmapFreePages_eq hsound, pmmBitmapFreePages_eq (hsound.marks hmarks), hmarks.totalFree,
      if_neg (by decide)]
    bv_omega

end Bitmap

/-! ### The buddy allocator -/

section Buddy
variable {c : BuddyPages} {A : BuddyArea} {g : U32}

/-- The free pages and those that callers hold are all pages. -/
theorem BuddyPages.Serves.freePages (h : c.Serves A) :
    (pmmBuddyFreePages c.state).toNat + c.live.length = c.state.totalPages.toNat := by
  obtain ⟨free, blocks, hdesc, hsingle, hlive⟩ := h.describes
  have hsum : (blocks.map fun b => 2 ^ b.order).sum = blocks.length := by
    rw [List.map_congr_left fun b hb => by rw [hsingle b hb]]
    simp
  have hlen : c.live.length = blocks.length := by rw [hlive.length_eq, List.length_map]
  have hsize := hdesc.size
  rw [List.nil_append, hsum] at hsize
  have hlt := c.state.totalPages.isLt
  unfold pmmBuddyFreePages
  rw [if_pos h.serves.ready, hdesc.holds.total, BitVec.toNat_ofNat, hlen]
  omega

/-- **An allocation of the buddy allocator** does the same. -/
theorem buddy_alloc_account (h : c.Serves A) {page : U32} {q' : PmmState}
    (hres : pmmAllocPage (.buddy c) = some (page, q')) :
    (∀ f, q'.InUse f ↔ (PmmState.buddy c).InUse f ∨ page ≠ 0#32 ∧ f = page) ∧
      (pmmFreePages q').toNat + (if page = 0#32 then 0 else 1) = (pmmBuddyFreePages c.state).toNat := by
  rcases h.alloc with hfail | ⟨s, page', hsome, hne, -, hsame, ⟨idx, hidx, heq⟩, hserves⟩
  · rw [pmmAllocPage, hfail] at hres
    obtain ⟨rfl, rfl⟩ := Prod.mk.inj (Option.some.inj hres)
    simp [pmmFreePages]
  · rw [pmmAllocPage, hsome, Option.map_some, if_neg hne] at hres
    obtain ⟨rfl, rfl⟩ := Prod.mk.inj (Option.some.inj hres)
    have hbefore := h.freePages
    have hafter := hserves.freePages
    have htotal : s.totalPages = c.state.totalPages := hsame.totalPages
    refine ⟨fun f => ?_, ?_⟩
    · have hzone : (∃ k < s.totalPages, f = indexToPhys s k) ↔
          ∃ k < c.state.totalPages, f = indexToPhys c.state k := by
        simp only [htotal, indexToPhys_sameZone hsame]
      simp only [PmmState.InUse, List.mem_cons, hzone, ne_eq, hne, not_false_eq_true, true_and]
      rw [or_assoc, or_comm]
    · rw [htotal, List.length_cons] at hafter
      rw [if_neg hne]
      show (pmmBuddyFreePages s).toNat + 1 = _
      dsimp only at hafter
      omega

/-- And so does a free. -/
theorem buddy_free_account (h : c.Serves A) (hg : (PmmZone.buddy (some A)).HasPage g)
    (huse : (PmmState.buddy c).InUse g) :
    (∀ f, (pmmFreePage g (.buddy c)).InUse f ↔ (PmmState.buddy c).InUse f ∧ f ≠ g) ∧
      (pmmFreePages (pmmFreePage g (.buddy c))).toNat = (pmmBuddyFreePages c.state).toNat + 1 := by
  -- a page of the zone
  obtain ⟨i, hi, hnat⟩ := hg
  have hidx : (BitVec.ofNat 32 i).toNat = i := by
    have hlt := A.managedPages.isLt
    rw [BitVec.toNat_ofNat, Nat.mod_eq_of_lt (hi.trans hlt)]
  have hlt : BitVec.ofNat 32 i < c.state.totalPages := by
    rw [BitVec.lt_def, h.serves.totalPages, hidx]
    exact hi
  have hself : g = indexToPhys c.state (BitVec.ofNat 32 i) := by
    apply BitVec.eq_of_toNat_eq
    rw [hnat, indexToPhys_toNat h.serves hlt, hidx]
  have hmem : g ∈ c.live := huse.resolve_right fun hno => hno ⟨_, hlt, hself⟩
  obtain ⟨hsame, hserves⟩ := h.free hmem
  have hnodup : c.live.Nodup := by
    obtain ⟨free, blocks, hdesc, -, hlive⟩ := h.describes
    refine hlive.nodup_iff.mpr (List.Nodup.map_on ?_ hdesc.nodup)
    intro a ha b hb heq
    have hidx := congrArg (physToIndex c.state) heq
    rw [physToIndex_indexToPhys h.serves (blockIdx_lt (hdesc.stop_le (.inr ha))),
      physToIndex_indexToPhys h.serves (blockIdx_lt (hdesc.stop_le (.inr hb)))] at hidx
    exact hdesc.inj (.inr ha) (.inr hb) hidx
  have hbefore := h.freePages
  have hafter := hserves.freePages
  rw [pmmFreePage, if_pos (List.contains_iff_mem.mpr hmem)]
  refine ⟨fun f => ?_, ?_⟩
  · have hzone : (∃ k < (pmmBuddyFreePage g c.state).totalPages,
        f = indexToPhys (pmmBuddyFreePage g c.state) k) ↔
          ∃ k < c.state.totalPages, f = indexToPhys c.state k := by
      simp only [hsame.totalPages, indexToPhys_sameZone hsame]
    simp only [PmmState.InUse, hzone, hnodup.mem_erase_iff]
    constructor
    · rintro (⟨hne, hf⟩ | hf)
      · exact ⟨.inl hf, hne⟩
      · refine ⟨.inr hf, ?_⟩
        rintro rfl
        exact hf ⟨_, hlt, hself⟩
    · rintro ⟨hf | hf, hne⟩
      exacts [.inl ⟨hne, hf⟩, .inr hf]
  · rw [hsame.totalPages, List.length_erase_of_mem hmem] at hafter
    have hpos := List.length_pos_of_mem hmem
    show (pmmBuddyFreePages (pmmBuddyFreePage g c.state)).toNat = _
    dsimp only at hafter
    omega

end Buddy

/-! ### The physical allocator -/

section Backend
variable {q : PmmState} {Z : PmmZone}

/-- Either allocator, by the backend. -/
theorem PmmState.InZone.alloc_account (h : q.InZone Z) {page : U32} {q' : PmmState}
    (hres : pmmAllocPage q = some (page, q')) :
    (∀ f, q'.InUse f ↔ q.InUse f ∨ page ≠ 0#32 ∧ f = page) ∧
      (pmmFreePages q').toNat + (if page = 0#32 then 0 else 1) = (pmmFreePages q).toNat := by
  match q, Z, h with
  | .bitmap p, .bitmap p₀, h =>
    obtain ⟨rfl, rfl⟩ := Prod.mk.inj (Option.some.inj hres)
    exact bitmap_alloc_account h
  | .buddy c, .buddy (some A), h => exact buddy_alloc_account h hres
  | .buddy c, .buddy none, h =>
    rw [pmmAllocPage, pmmBuddyAllocPage, if_pos (by simp [h.1])] at hres
    obtain ⟨rfl, rfl⟩ := Prod.mk.inj (Option.some.inj hres)
    simp

/-- Either free. -/
theorem PmmState.InZone.free_account (h : q.InZone Z) {g : U32} (hg : Z.HasPage g) (huse : q.InUse g) :
    (∀ f, (pmmFreePage g q).InUse f ↔ q.InUse f ∧ f ≠ g) ∧
      (pmmFreePages (pmmFreePage g q)).toNat = (pmmFreePages q).toNat + 1 := by
  match q, Z, h with
  | .bitmap p, .bitmap p₀, h => exact bitmap_free_account h hg huse
  | .buddy c, .buddy (some A), h => exact buddy_free_account h hg huse
  | .buddy c, .buddy none, h => exact hg.elim

/-- A frame that is not in use is a page of the zone, when `pmm_init` found one. -/
theorem PmmIn.hasPage_of_free (q : PmmIn Z) (hZ : Z ≠ .buddy none) {f : U32} (hf : ¬ q.val.InUse f) :
    Z.HasPage f := by
  obtain ⟨q, h⟩ := q
  match q, Z, h with
  | .bitmap p, .bitmap p₀, h =>
    obtain ⟨ri, i, hpage, -⟩ := not_not.mp hf
    exact ⟨ri, i, h.2.2.symm.hasPage hpage⟩
  | .buddy c, .buddy (some A), h =>
    obtain ⟨idx, hidx, rfl⟩ := not_not.mp (not_or.mp hf).2
    have hserves : c.Serves A := h
    refine ⟨idx.toNat, ?_, indexToPhys_toNat hserves.serves hidx⟩
    rw [← hserves.serves.totalPages]
    exact hidx
  | .buddy c, .buddy none, h => exact absurd rfl hZ

/-- **Either backend keeps exact accounts** for the virtual memory manager. -/
def pmmAccounts (Z : PmmZone) : CountingPmm (PmmIn Z) where
  toLawfulPmm := pmmBackend Z
  freePages q := pmmFreePages q.val
  Managed := Z.HasPage
  managed q hne := q.allocPage_hasPage hne
  alloc_inUse q := (q.property.alloc_account q.allocPage_eq).1
  alloc_count q := (q.property.alloc_account q.allocPage_eq).2
  free_inUse q _ hg huse := (q.property.free_account hg huse).1
  free_count q _ hg huse := (q.property.free_account hg huse).2

end Backend

end Microkernel.Kernel
