import Microkernel.Kernel.RegistryAccounts

/-! # The pages of the heap

`slab_get_page` maps the page at `slab_brk` when that has reached `slab_committed`. Both marks move by whole
pages, and no page that the heap has mapped lies behind the second one, so it maps no page twice.

* **`SlabOwns`** — the pages of the slab backend lie in front of `slab_committed`, with the marks at the
  first page when there are none.
* **`heapSlabAlloc_marks`** — an allocation moves the marks like `slab_get_page`, or not at all.
* **`kmalloc_pages`** — so `kmalloc` maps the next page of the heap or none. The first-fit backend maps
  nothing after its start.
-/

namespace Microkernel.Kernel

open Heap Vma Vmm

/-! ### The marks of the slab backend -/

section Marks
variable {s s' : SlabState} {size phys ptr : U32} {mapOk : Bool}

/-- Both marks are as before. -/
def SameMarks (s s' : SlabState) : Prop := s'.slabBrk = s.slabBrk ∧ s'.slabCommitted = s.slabCommitted

/-- Taking an object leaves the limits of the heap's pages. -/
theorem slabTakeObject_marks (ci : ℕ) (s : SlabState) : SameMarks s (slabTakeObject ci s).1 := by
  unfold slabTakeObject
  dsimp only
  split
  · exact ⟨rfl, rfl⟩
  · dsimp only
    split
    · exact ⟨rfl, rfl⟩
    · exact ⟨rfl, rfl⟩

/-- `heap_slab_free` moves no mark. -/
theorem heapSlabFree_marks (h : heapSlabFree ptr s = some s') : SameMarks s s' := by
  unfold heapSlabFree at h
  split at h
  · exact Option.some.inj h ▸ ⟨rfl, rfl⟩
  · dsimp only at h
    split at h
    · exact Option.some.inj h ▸ ⟨rfl, rfl⟩
    · split at h
      · obtain ⟨pp, -, rfl⟩ := Option.map_eq_some_iff.mp h
        cases pp with
        | full ci =>
          dsimp only
          split
          · exact ⟨rfl, rfl⟩
          · exact ⟨rfl, rfl⟩
        | next slab =>
          dsimp only
          split
          · exact ⟨rfl, rfl⟩
          · exact ⟨rfl, rfl⟩
      · exact Option.some.inj h ▸ ⟨rfl, rfl⟩

/-- `heap_slab_alloc` needs a page. -/
def NeedsPage (size : U32) (s : SlabState) : Prop :=
  size ≠ 0#32 ∧ ∃ ci, findCache size = some ci ∧ (s.caches ci).partialSlabs = 0#32

/-- **`heap_slab_alloc`** moves the marks as `slab_get_page` does when it needs a page, and otherwise not
at all. -/
theorem heapSlabAlloc_marks (size phys : U32) (mapOk : Bool) (s : SlabState) :
    (NeedsPage size s → SameMarks (slabGetPage phys mapOk s).1 (heapSlabAlloc size phys mapOk s).1) ∧
      (¬ NeedsPage size s → SameMarks s (heapSlabAlloc size phys mapOk s).1) := by
  unfold heapSlabAlloc
  by_cases hsize : size = 0#32
  · rw [if_pos hsize]
    exact ⟨fun h => absurd hsize h.1, fun _ => ⟨rfl, rfl⟩⟩
  rw [if_neg hsize]
  cases hfind : findCache size with
  | none =>
    refine ⟨fun ⟨_, ci, hci, _⟩ => ?_, fun _ => ⟨rfl, rfl⟩⟩
    rw [hfind] at hci
    exact absurd hci (by simp)
  | some ci =>
    dsimp only
    by_cases hpart : (s.caches ci).partialSlabs = 0#32
    · rw [if_pos hpart]
      refine ⟨fun _ => ?_, fun hno => absurd ⟨hsize, ci, hfind, hpart⟩ hno⟩
      have hcreate : SameMarks (slabGetPage phys mapOk s).1 (slabCreate ci phys mapOk s).1 := by
        unfold slabCreate
        dsimp only
        split
        · exact ⟨rfl, rfl⟩
        · exact ⟨rfl, rfl⟩
      split
      · exact hcreate
      · have htake := slabTakeObject_marks ci ((slabCreate ci phys mapOk s).1.modifyCache ci fun c =>
          { c with partialSlabs := (slabCreate ci phys mapOk s).2 })
        exact ⟨htake.1.trans hcreate.1, htake.2.trans hcreate.2⟩
    · rw [if_neg hpart]
      refine ⟨fun ⟨_, cj, hcj, hzero⟩ => ?_, fun _ => slabTakeObject_marks ci s⟩
      rw [hfind] at hcj
      exact absurd (Option.some.inj hcj ▸ hzero) hpart

end Marks

/-! ### What the heap has mapped -/

/-- **The pages of the slab backend** lie in front of `slab_committed`, where the next one goes. When the
heap was not initialised, the marks are at the first pages and there may be some of its window. -/
structure SlabOwns (s : SlabState) (pages : List U32) : Prop where
  brk_aligned : s.slabBrk.PageAligned
  committed_aligned : s.slabCommitted.PageAligned
  brk_le : s.slabBrk ≤ s.slabCommitted
  pages : ∀ v ∈ pages, v < s.slabCommitted ∨ InKheap v ∧ s.slabCommitted.toNat ≤ 8192

/-- The heap and the pages that it has mapped. -/
def KernelHeap.Owns : KernelHeap → List U32 → Prop
  | .firstFit _, _ => True
  | .slab c, pages => SlabOwns c.heap pages

/-- The next page of a sound heap is one of the places where the heap maps. -/
theorem KernelHeap.Sound.heapMaps {c : SlabClient} (h : (KernelHeap.slab c).Sound)
    (hlt : c.heap.slabBrk < kheapEnd) : HeapMaps c.heap.slabBrk := by
  rcases h with ⟨part, full, hdesc⟩ | hno
  · exact .inl ⟨hdesc.heap.start_le, hlt⟩
  · exact .inr hno.brk

section Owns
variable {s s' : SlabState} {pages : List U32} {size phys : U32} {mapOk : Bool}

/-- Marks that did not move own the same pages. -/
theorem SlabOwns.same (h : SlabOwns s pages) (hmarks : SameMarks s s') : SlabOwns s' pages := by
  obtain ⟨hbrk, hcm⟩ := hmarks
  exact ⟨hbrk ▸ h.brk_aligned, hcm ▸ h.committed_aligned, hbrk ▸ hcm ▸ h.brk_le, hcm ▸ h.pages⟩

/-- A committed page is taken. -/
theorem SlabOwns.take (h : SlabOwns s pages) (hlt : s.slabBrk < s.slabCommitted) :
    SlabOwns { s with slabBrk := s.slabBrk + vmmPageSize } pages := by
  have hbrk := (U32.pageAligned_iff _).mp h.brk_aligned
  have hcm := (U32.pageAligned_iff _).mp h.committed_aligned
  have hnext : (s.slabBrk + vmmPageSize).toNat = s.slabBrk.toNat + 4096 ∧
      s.slabBrk.toNat + 4096 ≤ s.slabCommitted.toNat := by
    have hbound := s.slabCommitted.isLt
    rw [BitVec.lt_def] at hlt
    rw [BitVec.toNat_add, show vmmPageSize.toNat = 4096 from rfl]
    omega
  have halign : (s.slabBrk + vmmPageSize).PageAligned := by
    rw [U32.pageAligned_iff]
    omega
  have hle : s.slabBrk + vmmPageSize ≤ s.slabCommitted := by
    rw [BitVec.le_def, hnext.1]
    exact hnext.2
  exact ⟨halign, h.committed_aligned, hle, h.pages⟩

/-- **The next page is a new one.** -/
theorem SlabOwns.notMem (h : SlabOwns s pages) (hge : s.slabBrk ≥ s.slabCommitted) :
    s.slabBrk ∉ pages := by
  intro hmem
  have hle := h.brk_le
  rcases h.pages _ hmem with hlt | ⟨⟨hin, -⟩, hlow⟩
  · exact absurd hlt (BitVec.not_lt.mpr hge)
  · rw [BitVec.le_def, show kheapStart.toNat = 0xE0000000 from rfl] at hin
    rw [BitVec.le_def] at hle
    omega

/-- A page is mapped and taken. -/
theorem SlabOwns.extend (h : SlabOwns s pages) (hmaps : HeapMaps s.slabBrk) (hend : s.slabBrk < kheapEnd)
    (hge : s.slabBrk ≥ s.slabCommitted) :
    SlabOwns { s with
      slabCommitted := s.slabCommitted + vmmPageSize
      slabBrk := s.slabBrk + vmmPageSize } (s.slabBrk :: pages) := by
  have heq : s.slabCommitted = s.slabBrk := BitVec.le_antisymm hge h.brk_le
  have hbrk := (U32.pageAligned_iff _).mp h.brk_aligned
  have hnext : (s.slabBrk + vmmPageSize).toNat = s.slabBrk.toNat + 4096 := by
    rw [BitVec.lt_def, show kheapEnd.toNat = 0xF0000000 from rfl] at hend
    rw [BitVec.toNat_add, show vmmPageSize.toNat = 4096 from rfl]
    omega
  have halign : (s.slabBrk + vmmPageSize).PageAligned := by
    rw [U32.pageAligned_iff]
    omega
  rw [heq]
  refine ⟨halign, halign, BitVec.le_refl _, fun v hv => ?_⟩
  rcases List.mem_cons.mp hv with rfl | hv
  · exact .inl (by rw [BitVec.lt_def, hnext]; omega)
  rcases h.pages v hv with hlt | ⟨hin, hlow⟩
  · rw [heq, BitVec.lt_def] at hlt
    exact .inl (by rw [BitVec.lt_def, hnext]; omega)
  · rw [heq] at hlow
    refine .inr ⟨hin, hnext.trans_le ?_⟩
    rcases hmaps with ⟨hmaps, -⟩ | hmaps
    · rw [BitVec.le_def, show kheapStart.toNat = 0xE0000000 from rfl] at hmaps
      omega
    · omega

/-- `slab_get_page` without a frame takes at most a committed page. -/
theorem SlabOwns.getPage (h : SlabOwns s pages)
    (hfail : s.slabBrk < kheapEnd → s.slabBrk ≥ s.slabCommitted → mapOk = false) :
    SlabOwns (slabGetPage phys mapOk s).1 pages := by
  unfold slabGetPage
  split
  · exact h
  rename_i hend
  dsimp only
  split
  · rename_i hge
    rw [hfail (BitVec.not_le.mp hend) hge]
    split
    · exact h
    · exact h
  · rename_i hlt
    exact h.take (BitVec.not_le.mp hlt)

end Owns

/-! ### `kmalloc` -/

section Kmalloc
variable {σ : Type*} {P : LawfulPmm σ} {s s' : KernelState σ} {pages : List U32} {size answer : U32}

/-- A page that was mapped has a frame. -/
theorem mapFreshPage_frame {v : U32} {t : VmmState σ} (hok : (mapFreshPage P v t).2.2 = true) :
    (mapFreshPage P v t).2.1 ≠ 0#32 := by
  unfold mapFreshPage at hok ⊢
  dsimp only at hok ⊢
  split at hok
  · exact absurd hok (by simp)
  · rename_i hnull
    rw [if_neg hnull]
    split
    · exact hnull
    · exact hnull

/-- **What `kmalloc` maps**: nothing, or the next page of the heap, which is a new one. -/
theorem kmalloc_pages (h : s.heap.Sound) (howns : s.heap.Owns pages)
    (hres : kmalloc P size s = some (s', answer)) :
    s'.heap.Owns ((heapRequest P size s).toList ++ pages) ∧
      (s'.vmm = s.vmm ∧ heapRequest P size s = none ∨
        ∃ v, HeapMaps v ∧ v ∉ pages ∧ s'.vmm = (mapFreshPage P v s.vmm).1 ∧
          heapRequest P size s = if (mapFreshPage P v s.vmm).2.2 then some v else none) := by
  unfold kmalloc at hres
  unfold heapRequest
  cases hheap : s.heap with
  | firstFit c =>
    rw [hheap] at hres
    obtain ⟨r, -, hr⟩ := Option.map_eq_some_iff.mp hres
    obtain ⟨rfl, -⟩ := Prod.mk.inj hr
    exact ⟨trivial, .inl ⟨rfl, rfl⟩⟩
  | slab c =>
    rw [hheap] at h howns hres
    dsimp only at hres ⊢
    split at hres
    · exact absurd hres (by simp)
    obtain ⟨r, hcall, hr⟩ := Option.map_eq_some_iff.mp hres
    obtain ⟨rfl, -⟩ := Prod.mk.inj hr
    have hheap' : r.1.heap = (heapSlabAlloc size (slabRequestPage P size c.heap s.vmm).2.1
        (slabRequestPage P size c.heap s.vmm).2.2 c.heap).1 := by
      exact (congrArg (fun a => a.1.heap) (Option.some.inj hcall)).symm
    obtain ⟨hneeds, hnot⟩ := heapSlabAlloc_marks size (slabRequestPage P size c.heap s.vmm).2.1
      (slabRequestPage P size c.heap s.vmm).2.2 c.heap
    rw [← hheap'] at hneeds hnot
    -- whether the backend asks for a frame
    have hrequest : slabRequestPage P size c.heap s.vmm = (s.vmm, 0#32, false) ∧
          (NeedsPage size c.heap → c.heap.slabBrk < kheapEnd →
            ¬ c.heap.slabBrk ≥ c.heap.slabCommitted) ∨
        slabRequestPage P size c.heap s.vmm = mapFreshPage P c.heap.slabBrk s.vmm ∧
          NeedsPage size c.heap ∧ c.heap.slabBrk < kheapEnd ∧
            c.heap.slabBrk ≥ c.heap.slabCommitted := by
      unfold slabRequestPage NeedsPage
      cases hfind : findCache size with
      | none => exact .inl ⟨rfl, fun ⟨_, ci, hci, _⟩ => absurd hci (by simp)⟩
      | some ci =>
        dsimp only
        split
        · rename_i hc
          exact .inr ⟨rfl, ⟨hc.1, ci, rfl, hc.2.1⟩, hc.2.2.1, hc.2.2.2⟩
        · rename_i hc
          refine .inl ⟨rfl, fun ⟨hsize, cj, hcj, hpart⟩ hend hge => hc ⟨hsize, ?_, hend, hge⟩⟩
          rw [Option.some.inj hcj]
          exact hpart
    rcases hrequest with ⟨hreq, hno⟩ | ⟨hreq, hneed, hend, hge⟩
    · rw [hreq] at hneeds ⊢
      refine ⟨?_, .inl ⟨rfl, rfl⟩⟩
      by_cases hneed : NeedsPage size c.heap
      · exact SlabOwns.same (SlabOwns.getPage howns fun hend hge => absurd hge (hno hneed hend))
          (hneeds hneed)
      · exact SlabOwns.same howns (hnot hneed)
    · have hmaps := h.heapMaps hend
      have hmarks := hneeds hneed
      rw [hreq] at hmarks ⊢
      refine ⟨?_, .inr ⟨_, hmaps, SlabOwns.notMem howns hge, rfl, rfl⟩⟩
      cases hok : (mapFreshPage P c.heap.slabBrk s.vmm).2.2 with
      | false =>
        rw [hok] at hmarks
        exact SlabOwns.same (SlabOwns.getPage howns fun _ _ => rfl) hmarks
      | true =>
        rw [hok] at hmarks
        have hpage : (slabGetPage (mapFreshPage P c.heap.slabBrk s.vmm).2.1 true c.heap).1 =
            { c.heap with
              slabCommitted := c.heap.slabCommitted + vmmPageSize
              slabBrk := c.heap.slabBrk + vmmPageSize } := by
          unfold slabGetPage
          rw [if_neg (BitVec.not_le.mpr hend), if_pos hge, if_neg (mapFreshPage_frame hok),
            if_neg (by simp)]
        rw [hpage] at hmarks
        exact SlabOwns.same (SlabOwns.extend howns hmaps hend hge) hmarks

/-- `kfree` maps nothing. -/
theorem kfree_owns {ptr : U32} (howns : s.heap.Owns pages) (hres : kfree ptr s = some (s', answer)) :
    s'.heap.Owns pages := by
  unfold kfree at hres
  cases hheap : s.heap with
  | firstFit c =>
    rw [hheap] at hres
    obtain ⟨r, -, hr⟩ := Option.map_eq_some_iff.mp hres
    obtain ⟨rfl, -⟩ := Prod.mk.inj hr
    trivial
  | slab c =>
    rw [hheap] at howns hres
    obtain ⟨r, hcall, hr⟩ := Option.map_eq_some_iff.mp hres
    obtain ⟨rfl, -⟩ := Prod.mk.inj hr
    simp only [slabCall] at hcall
    split at hcall
    · obtain ⟨heap, hfree, hc⟩ := Option.map_eq_some_iff.mp hcall
      obtain rfl := hc
      exact SlabOwns.same howns (heapSlabFree_marks hfree)
    · obtain rfl := Option.some.inj hcall
      exact howns

end Kmalloc

end Microkernel.Kernel
