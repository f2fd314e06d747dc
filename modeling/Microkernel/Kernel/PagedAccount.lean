import Microkernel.Kernel.PagedKernel

/-! # The kernel's memory in physical memory

What holds in every run of the kernel over physical memory, as long as the frames that the physical allocator
gives are below the end of the direct map. Between the calls ring 0 may write anywhere but through the pointers
to the page tables, which lie in the direct map.

* **`directMap_survives`**: the direct map still leads to every page below `map_end`.
* **`vmmAllocPages_fresh`**: `vmm_alloc_pages` returns pages that were not mapped.
* **`memory_accounted`**: what the processor reaches, and where every frame is. -/

namespace Microkernel.Kernel

open Heap Vma Vmm
open Paging (pageOf Access)

/-- A call of the heap, or a write. -/
def PagedCall.IsHeap : PagedCall → Prop
  | .call heapCall => heapCall.IsHeap
  | .write _ _ => True

/-! ### The start of the examples -/

section Sample
variable {k : PagedKernel FreeFrames SaState} {p : RegisteredState FreeFrames SaState}

/-- What the examples use of the start: the direct map ends at 32 MiB, and there are frames left. -/
structure PagedKernel.AtStart (k : PagedKernel FreeFrames SaState) (p : RegisteredState FreeFrames SaState) :
    Prop where
  refines : k.Refines p (freeListPmm 0x1F00#32 0x100000#32) (DirectFrame 0x2000000#32) 0xC2000000
  supplied : p.kernel.vmm.Supplied (freeListPmm 0x1F00#32 0x100000#32) 1
  backed : p.kernel.vmm.Backed (freeListPmm 0x1F00#32 0x100000#32) sampleFrames kheapStart
  nextVaddr : p.kernel.vmm.nextVaddr = 0xC2000000#32
  registry : p.registry.ready = true
  rel : (VmaBackend.refinement .sortedArray).Rel p.registry.state (bootAreas sampleNames 0xC2000000#32)
  live : p.live = []

/-- The frames of the examples are below the end of the direct map. -/
theorem sampleFrames_direct (pages : U32) {mapEnd : U32} (hmap : 0x2000000#32 ≤ mapEnd) (f : U32)
    (hf : ¬ (freeListPmm pages 0x100000#32).InUse sampleFrames f) : DirectFrame mapEnd f := by
  have hmem : f ∈ sampleList := by
    rw [← sampleFrames_frames]
    exact not_not.mp hf
  obtain ⟨-, hge, hlt⟩ := mem_sampleList hmem
  have hmap' : 0x2000000 ≤ mapEnd.toNat := hmap
  refine ⟨?_, fun hin => ?_⟩
  · rw [BitVec.lt_def]
    omega
  · have hheap : (0xE0000000#32).toNat ≤ (physToVirt f).toNat := hin.1
    unfold physToVirt kernelVirtOffset at hheap
    bv_omega

/-- The start. -/
theorem kernelBoot_sample :
    ∃ (k₀ : PagedKernel FreeFrames SaState) (p₀ : RegisteredState FreeFrames SaState),
      InMemory.kernelBoot (freeListPmm 0x1F00#32 0x100000#32) saOps sampleNames 0x200000#32
        (fun _ _ => 0#32) sampleFrames zeroBackend ⟨fun _ => .zero, 0⟩ = some k₀ ∧
      k₀.memory.ready ∧ k₀.AtStart p₀ ∧
      p₀.kernel.heap = zeroBackend.static.init kheapStart (kheapInitialPages * vmmPageSize) := by
  obtain ⟨p₀, hboot, hready, hsup, -, hnext, hr, hrel, hbacked, hheap⟩ :=
    kernelBootRegistered_sample 0x1F00#32 0xC2000000#32 1 (by decide) rfl
  obtain ⟨k₀, hboot', h⟩ := (@kernelBoot_returns _ _ _ _ _ _ (fun _ _ => 0#32))
    (sampleFrames_direct 0x1F00#32 (by decide)) hboot hready
  have hlive : p₀.live = [] := by
    obtain ⟨t, -, hrest⟩ := Option.bind_eq_some_iff.mp hboot
    obtain ⟨a, -, hrest⟩ := Option.bind_eq_some_iff.mp hrest
    obtain ⟨b, -, rfl⟩ := Option.map_eq_some_iff.mp hrest
    rfl
  exact ⟨k₀, p₀, hboot', h.implements.memory.ready.trans hready, ⟨h, hsup, hbacked, hnext, hr, hrel, hlive⟩,
    hheap⟩

/-- `kmalloc(100)` of the fresh heap. -/
theorem PagedKernel.AtStart.kmalloc (h : k.AtStart p)
    (hheap : p.kernel.heap = zeroBackend.static.init kheapStart (kheapInitialPages * vmmPageSize)) :
    ((PagedCall.call (.kmalloc 100#32)).IsHeap ∧ k.InRoom (.call (.kmalloc 100#32))) ∧
      ∃ k' p', InMemory.pagedCall (freeListPmm 0x1F00#32 0x100000#32) saOps sampleNames.vmmAlloc k
        (.call (.kmalloc 100#32)) = some (k', 0xE0000010#32) ∧ k'.AtStart p' := by
  obtain ⟨c, hc⟩ : ∃ c, zeroBackend.static.init kheapStart (kheapInitialPages * vmmPageSize) =
      .firstFit c := ⟨_, rfl⟩
  obtain ⟨⟨c', q⟩, hcall, hq⟩ : ∃ r, heapCall c (.alloc 100#32) = some r ∧ r.2 = 0xE0000010#32 := by
    obtain rfl := KernelHeap.firstFit.inj hc
    exact Option.map_eq_some_iff.mp (by decide)
  obtain rfl : q = 0xE0000010#32 := hq
  have hres : registeredCall (freeListPmm 0x1F00#32 0x100000#32) saOps sampleNames.vmmAlloc p (.kmalloc 100#32) =
      some (⟨⟨p.kernel.vmm, .firstFit c', p.kernel.pages⟩, p.registry, p.live, p.heapPages⟩,
        0xE0000010#32) := by
    unfold registeredCall Kernel.kmalloc heapRequest
    rw [hheap, hc]
    dsimp only
    rw [hcall]
    rfl
  have hroom : Kernel.InRoom p.kernel (.kmalloc 100#32) := trivial
  obtain ⟨k', hcall', h'⟩ := h.refines.returns hroom hres
  exact ⟨⟨trivial, hroom⟩, k', _, hcall', h', h.supplied, h.backed, h.nextVaddr, h.registry, h.rel, h.live⟩

/-- A write to the block. -/
theorem PagedKernel.AtStart.write (h : k.AtStart p) :
    k.InRoom (.write 0xE0000010#32 7#32) ∧
      ∃ k', InMemory.pagedCall (freeListPmm 0x1F00#32 0x100000#32) saOps sampleNames.vmmAlloc k
        (.write 0xE0000010#32 7#32) = some (k', 0#32) ∧ k'.AtStart p := by
  have hpage : pageAddr (pageOf 0xE0000010#32) = kheapStart := by decide
  have hroom : k.InRoom (.write 0xE0000010#32 7#32) := by
    refine h.refines.writes ?_ _
    rw [hpage]
    exact h.refines.spares _ (.inl (by decide))
  obtain ⟨f, hf, -⟩ := h.backed
  rw [← hpage] at hf
  obtain ⟨m, hm⟩ := h.refines.grounded.stores h.refines.implements.memory hf 7#32
  exact ⟨hroom, _, congrArg (Option.map _) hm,
    ⟨h.refines.write hroom hm, h.supplied, h.backed, h.nextVaddr, h.registry, h.rel, h.live⟩⟩

/-- The request is served. -/
theorem PagedKernel.AtStart.serves (h : k.AtStart p) : RoomFor k.memory.nextVaddr 1#32 ∧
    (Vmm.vmmAllocPages (freeListPmm 0x1F00#32 0x100000#32) 1#32 p.kernel.vmm).2 = 0xC2000000#32 := by
  have hnext := h.nextVaddr
  have hp : (Vmm.vmmAllocPages (freeListPmm 0x1F00#32 0x100000#32) 1#32 p.kernel.vmm).2 =
      p.kernel.vmm.nextVaddr :=
    vmmAllocPages_supplied h.supplied h.refines.grounded.anchored.ready (by rw [hnext]; decide)
      (by rw [hnext]; decide) (by decide) (by rw [hnext]; decide)
  refine ⟨?_, hp.trans hnext⟩
  rw [h.refines.implements.memory.nextVaddr, hnext]
  exact .inl (by decide)

/-- A request for a page in the memory. -/
theorem PagedKernel.AtStart.allocPages_memory (h : k.AtStart p) :
    RoomFor k.memory.nextVaddr 1#32 ∧
      ∃ m, Vmm.InMemory.vmmAllocPages (freeListPmm 0x1F00#32 0x100000#32) 1#32 k.memory =
        some (m, 0xC2000000#32) := by
  obtain ⟨hroom, hp⟩ := h.serves
  obtain ⟨m, hm, -⟩ := h.refines.grounded.allocPages h.refines.implements.memory (h.refines.above.range
    (h.refines.implements.inRoom_iff.mp (show k.InRoom (.call (.allocPages 1#32)) from .inr hroom)))
  rw [hp] at hm
  exact ⟨hroom, m, hm⟩

/-- A request for a page. -/
theorem PagedKernel.AtStart.allocPages (h : k.AtStart p) :
    RoomFor k.memory.nextVaddr 1#32 ∧
      ∃ k', InMemory.pagedCall (freeListPmm 0x1F00#32 0x100000#32) saOps sampleNames.vmmAlloc k
        (.call (.allocPages 1#32)) = some (k', 0xC2000000#32) ∧ k'.live = [(0xC2000000#32, 1#32)] := by
  obtain ⟨hroom, hp⟩ := h.serves
  obtain ⟨s', q, halloc⟩ : ∃ s' q, Vmm.vmmAllocPages (freeListPmm 0x1F00#32 0x100000#32) 1#32
      p.kernel.vmm = (s', q) := ⟨_, _, rfl⟩
  rw [halloc] at hp
  obtain rfl : q = 0xC2000000#32 := hp
  have hlen := (length_bootAreas sampleNames 0xC2000000#32).2.trans_lt (by decide : 2 < 256)
  obtain ⟨t, hres, -⟩ := registeredCall_alloc sampleNames.vmmAlloc h.registry h.rel hlen halloc (by decide)
  have hcond : k.InRoom (.call (.allocPages 1#32)) := .inr hroom
  obtain ⟨k', hcall, h'⟩ := h.refines.returns (h.refines.implements.inRoom_iff.mp hcond) hres
  refine ⟨hroom, k', hcall, ?_⟩
  rw [h'.implements.live, h.live]

end Sample

section Kernel
variable {σ : Type*} {ρ : Type} {P : LawfulPmm σ} {B : VmaOps ρ} {D : U32 → Prop} {base : ℕ}
  {names : AreaNames} {name : NamePtr} {kernelEnd : U32} {frames : BitVec 20 → BitVec 10 → BitVec 32}
  {pmm : σ} {backend : HeapBackend} {state : ρ} {k k₀ : PagedKernel σ ρ} {p p₀ : RegisteredState σ ρ}

/-! ### The kernel without its registry -/

/-- The start of the kernel is the one without the registry. -/
theorem kernelBootRegistered_kernel {table : U32 → U32 → U32}
    (hboot : kernelBootRegistered P B names kernelEnd table pmm backend state = some p₀) :
    kernelBoot P kernelEnd table pmm backend = some p₀.kernel := by
  obtain ⟨t, hinit, hboot⟩ := Option.bind_eq_some_iff.mp hboot
  obtain ⟨a, -, hboot⟩ := Option.bind_eq_some_iff.mp hboot
  obtain ⟨b, -, rfl⟩ := Option.map_eq_some_iff.mp hboot
  exact congrArg (Option.map _) hinit

/-- And so are its runs. -/
theorem registeredMachine_kernel {C : KernelState σ → KernelCall → Prop}
    (hp : (registeredMachine P B name p₀).ReachableVia (fun p call => C p.kernel call) p) :
    (kernelMachine P p₀.kernel).ReachableVia C p.kernel := by
  induction hp with
  | init => exact .init
  | step _ hcall hres ih => exact .step ih hcall (registeredCall_kernel hres)

/-! ### The direct map -/

/-- A frame below the end of a direct map that ends in front of the heap window. -/
theorem DirectFrame.of_lt {mapEnd f : U32} (hmax : mapEnd.toNat ≤ 2 ^ 29) (hlt : f < mapEnd) :
    DirectFrame mapEnd f := by
  refine ⟨hlt, ?_⟩
  rintro ⟨hge, -⟩
  have hnat := physToVirt_toNat (hmax.trans (by decide)) hlt
  rw [BitVec.le_def, show kheapStart.toNat = 0xE0000000 from rfl] at hge
  rw [BitVec.lt_def] at hlt
  omega

/-- **The direct map survives heap use** as long as it ends in front of the heap and the frames that the
allocator gives are below its end: whatever the backends and the memory, after the start and any calls of
`kmalloc` and `kfree` and writes that do not go through the pointers to page tables, `vmm_get_physical` and
the processor still find every page below `map_end` behind `KERNEL_VIRT_OFFSET`. -/
theorem directMap_survives (hfits : FitsBelowHeap P kernelEnd pmm)
    (hlow : ∀ f, ¬ P.InUse pmm f → f < vmmMapEnd P.toPmmOps kernelEnd pmm)
    (hboot : InMemory.kernelBoot P B names kernelEnd frames pmm backend state = some k₀)
    (hready : k₀.memory.ready)
    (hk : (InMemory.kernelMachine P B name k₀).ReachableVia (fun k call => call.IsHeap ∧ k.InRoom call) k)
    {f : U32} (hf : f.PageAligned) (hlt : f < vmmMapEnd P.toPmmOps kernelEnd pmm) :
    k.memory.Finds (physToVirt f) f := by
  obtain ⟨p₀, hboot₀, h₀⟩ := kernelBoot_refines (fun f hf => .of_lt hfits.mapEnd_le (hlow f hf)) hboot hready
  obtain ⟨p, hp, h⟩ := (@PagedKernel.reachable_refines _ _ _ _ _ _ _ _ _ _ _ fun p call => call.IsHeap)
    (fun _ _ hcall => hcall.2) (fun _ _ _ _ hcall => hcall.1) h₀ hk
  have hget := kernelMachine_directMap hfits (kernelBootRegistered_kernel hboot₀)
    (h₀.implements.memory.ready ▸ hready) (registeredMachine_kernel (C := fun _ call => call.IsHeap) hp) hf hlt
  rw [vmmGetPhysical_eq, if_pos ⟨h.grounded.anchored.ready, physToVirt_aligned hf⟩] at hget
  exact (h.grounded.finds_iff h.implements.memory (physToVirt_aligned hf)).mpr hget

/-- After a `kmalloc` and a write into the heap. -/
theorem directMap_survives_written :
    ∃ k₀ k₁ k₂ : PagedKernel FreeFrames SaState,
      InMemory.kernelBoot (freeListPmm 0x1F00#32 0x100000#32) saOps sampleNames 0x200000#32
        (fun _ _ => 0#32) sampleFrames zeroBackend ⟨fun _ => .zero, 0⟩ = some k₀ ∧
      InMemory.pagedCall (freeListPmm 0x1F00#32 0x100000#32) saOps sampleNames.vmmAlloc k₀
        (.call (.kmalloc 100#32)) = some (k₁, 0xE0000010#32) ∧
      InMemory.pagedCall (freeListPmm 0x1F00#32 0x100000#32) saOps sampleNames.vmmAlloc k₁
        (.write 0xE0000010#32 7#32) = some (k₂, 0#32) ∧
      k₂.memory.Finds (physToVirt 0x1FFF000#32) 0x1FFF000#32 := by
  obtain ⟨k₀, p₀, hboot, hready, h₀, hheap⟩ := kernelBoot_sample
  obtain ⟨hkmalloc, k₁, p₁, hcall₁, h₁⟩ := h₀.kmalloc hheap
  obtain ⟨hroom, k₂, hcall₂, -⟩ := h₁.write
  have hwrite : (PagedCall.write 0xE0000010#32 7#32).IsHeap := trivial
  have hrun : (InMemory.kernelMachine (freeListPmm 0x1F00#32 0x100000#32) saOps sampleNames.vmmAlloc
      k₀).ReachableVia (fun k call => call.IsHeap ∧ k.InRoom call) k₂ :=
    .step (.step .init hkmalloc hcall₁) ⟨hwrite, hroom⟩ hcall₂
  exact ⟨k₀, k₁, k₂, hboot, hcall₁, hcall₂, directMap_survives (by unfold FitsBelowHeap; decide)
    (fun f hf => (sampleFrames_direct 0x1F00#32 (by decide) f hf).1) hboot hready hrun (by decide)
    (by decide)⟩

/-- When the direct map is one page longer than the way to the heap, its last page is lost. -/
theorem directMap_lost :
    ¬ ∀ (P : LawfulPmm FreeFrames) (B : VmaOps SaState) names name kernelEnd frames pmm backend state k₀ k f,
      InMemory.kernelBoot P B names kernelEnd frames pmm backend state = some k₀ → k₀.memory.ready →
      (InMemory.kernelMachine P B name k₀).ReachableVia (fun k call => call.IsHeap ∧ k.InRoom call) k →
      f.PageAligned → f < vmmMapEnd P.toPmmOps kernelEnd pmm →
      Vmm.InMemory.vmmGetPhysical (physToVirt f) k.memory = some (some f) := by
  intro hall
  obtain ⟨p₀, hboot, hready, -, -, -, -, -, ⟨f, hf, huse⟩, -⟩ :=
    kernelBootRegistered_sample 0x1FF01#32 0xE0001000#32 0 (by decide) rfl
  obtain ⟨k₀, hboot', h⟩ := (@kernelBoot_returns _ _ _ _ _ _ (fun _ _ => 0#32))
    (sampleFrames_direct 0x1FF01#32 (by decide)) hboot hready
  have hpage := hall _ _ _ sampleNames.vmmAlloc _ _ _ _ _ k₀ k₀ 0x20000000#32 hboot'
    (h.implements.memory.ready.trans hready) .init (by decide) (by decide)
  -- the first page of the heap lies there, and has a frame of the free list
  rw [show physToVirt 0x20000000#32 = kheapStart from rfl, h.grounded.getPhysical h.implements.memory,
    vmmGetPhysical_eq, if_pos ⟨hready, by decide⟩, hf] at hpage
  obtain rfl := Option.some.inj (Option.some.inj hpage)
  apply huse
  intro hmem
  rw [sampleFrames_frames] at hmem
  exact absurd (mem_sampleList hmem).2.2 (by decide)

/-! ### Fresh ranges -/

/-- **A fresh range**: `count` whole pages from `p` on without wrap-around, none of them mapped before,
all of them mapped afterwards, and none in the heap window. -/
structure FreshPages {σ : Type*} (m m' : PagedMemory σ) (p count : U32) : Prop where
  aligned : p.PageAligned
  noWrap : p.toNat + count.toNat * 4096 ≤ 2 ^ 32
  unmapped : ∀ v, PagesOf p count v → m.Unmapped v
  mapped : ∀ v, PagesOf p count v → ∃ f, m'.Finds v f
  outside : ∀ v, PagesOf p count v → ¬ InKheap v

/-- A request of the slab heap for a page leaves the watermark and the flag. -/
theorem slabRequestPage_static {size : U32} {heap : SlabState} {m : PagedMemory σ}
    {r : PagedMemory σ × U32 × Bool} (h : InMemory.slabRequestPage P size heap m = some r) :
    m.SameStatic r.1 := by
  unfold InMemory.slabRequestPage at h
  split at h
  · obtain rfl := Option.some.inj h
    exact .refl m
  · split at h
    · exact InMemory.mapFreshPage_static h
    · obtain rfl := Option.some.inj h
      exact .refl m

/-- Paging that is not ready stays so. -/
theorem pagedCall_notReady {k' : PagedKernel σ ρ} {call : PagedCall} {answer : U32}
    (hready : ¬ k.memory.ready) (hres : InMemory.pagedCall P B name k call = some (k', answer)) :
    ¬ k'.memory.ready := by
  have hstatic : k.memory.SameStatic k'.memory := by
    cases call with
    | write v x =>
      obtain ⟨m, hm, hr⟩ := Option.map_eq_some_iff.mp hres
      obtain ⟨rfl, -⟩ := Prod.mk.inj hr
      exact PagedMemory.store_static hm
    | call call =>
      replace hres : InMemory.kernelCall P B name k call = some (k', answer) := hres
      cases call with
      | kmalloc size =>
        unfold InMemory.kernelCall InMemory.kmalloc at hres
        dsimp only at hres
        split at hres
        · obtain ⟨r, -, hr⟩ := Option.map_eq_some_iff.mp hres
          obtain ⟨rfl, -⟩ := Prod.mk.inj hr
          exact .refl _
        · obtain ⟨req, hreq, hrest⟩ := Option.bind_eq_some_iff.mp hres
          split at hrest
          · exact absurd hrest (by simp)
          obtain ⟨r, -, hr⟩ := Option.map_eq_some_iff.mp hrest
          obtain ⟨rfl, -⟩ := Prod.mk.inj hr
          -- a mapping does not touch the flag
          exact slabRequestPage_static hreq
      | kfree ptr =>
        unfold InMemory.kernelCall InMemory.kfree at hres
        dsimp only at hres
        split at hres
        · obtain ⟨r, -, hr⟩ := Option.map_eq_some_iff.mp hres
          obtain ⟨rfl, -⟩ := Prod.mk.inj hr
          exact .refl _
        · obtain ⟨r, -, hr⟩ := Option.map_eq_some_iff.mp hres
          obtain ⟨rfl, -⟩ := Prod.mk.inj hr
          exact .refl _
      | allocPages count =>
        obtain ⟨r, hr, hrest⟩ := Option.map_eq_some_iff.mp hres
        obtain ⟨rfl, -⟩ := Prod.mk.inj hrest
        unfold InMemory.vmmAllocPagesRegistered at hr
        rw [vmmAllocPages_rejects_inMemory (.inr (.inl hready)), Option.bind_some, if_neg (by simp)] at hr
        obtain rfl := Option.some.inj hr
        exact .refl _
      | freePages vaddr count =>
        unfold InMemory.kernelCall at hres
        dsimp only at hres
        split at hres
        · obtain ⟨r, hr, hrest⟩ := Option.map_eq_some_iff.mp hres
          obtain ⟨rfl, -⟩ := Prod.mk.inj hrest
          unfold InMemory.vmmFreePagesRegistered at hr
          rw [if_pos (.inr (.inr hready))] at hr
          obtain rfl := Option.some.inj hr
          exact .refl _
        · obtain ⟨rfl, -⟩ := Prod.mk.inj (Option.some.inj hres)
          exact .refl _
  rw [hstatic.1]
  exact hready

/-- **`vmm_alloc_pages` returns fresh ranges as long as it has room** and the frames that the allocator gives
have pointers in the direct map: in every run from the start whose requests each were turned away by a check
or had room in front of the heap window or behind it, the next request of that kind returns, `NULL` or whole
pages without wrap-around that were not mapped and do not lie in the heap window. -/
theorem vmmAllocPages_fresh
    (hlow : ∀ f, ¬ P.InUse pmm f → DirectFrame (vmmMapEnd P.toPmmOps kernelEnd pmm) f)
    (hboot : InMemory.kernelBoot P B names kernelEnd frames pmm backend state = some k₀)
    (hk : (InMemory.kernelMachine P B name k₀).ReachableVia PagedKernel.InRoom k) {count : U32}
    (hroom : k.InRoom (.call (.allocPages count))) :
    ∃ m q, InMemory.vmmAllocPages P count k.memory = some (m, q) ∧
      (q ≠ 0#32 → FreshPages k.memory m q count) := by
  by_cases hready : k₀.memory.ready
  swap
  · -- without paging every request is turned away
    have hrej : k.memory.Rejects count := .inr (.inl (hk.invariant (I := fun k => ¬ k.memory.ready) hready
      fun _ _ _ _ h _ hres => pagedCall_notReady h hres))
    exact ⟨k.memory, 0#32, vmmAllocPages_rejects_inMemory hrej, fun hne => absurd rfl hne⟩
  obtain ⟨p₀, hboot₀, h₀⟩ := kernelBoot_refines hlow hboot hready
  obtain ⟨p, hp, h⟩ := (@PagedKernel.reachable_refines _ _ _ _ _ _ _ _ _ _ _
    fun p call => InRoom p.kernel call)
    (fun _ _ hcall => hcall) (fun _ _ _ hk hcall => hk.inRoom_iff.mp hcall) h₀ hk
  have hroom' := h.implements.inRoom_iff.mp hroom
  obtain ⟨m, hres, hm, hs⟩ := h.grounded.allocPages h.implements.memory (h.above.range hroom')
  refine ⟨m, _, hres, fun hne => ?_⟩
  have hfresh := kernelMachine_fresh (kernelBootRegistered_kernel hboot₀) (registeredMachine_kernel hp)
    hroom' Prod.mk.eta.symm hne
  refine ⟨hfresh.aligned, hfresh.noWrap, fun v hv => ?_, fun v hv => ?_, hfresh.outside⟩
  · have hzero := hfresh.unmapped v hv
    rw [vmmIsMapped_eq, if_pos ⟨h.grounded.anchored.ready, hv.1⟩] at hzero
    rw [h.grounded.unmapped_iff h.implements.memory hv.1]
    by_contra hmapped
    rw [if_pos (Option.isSome_iff_ne_none.mpr hmapped)] at hzero
    exact absurd hzero (by decide)
  · have hone := hfresh.mapped v hv
    rw [vmmIsMapped_eq, if_pos ⟨hs.anchored.ready, hv.1⟩] at hone
    have hmapped : (Vmm.vmmAllocPages P count p.kernel.vmm).1.translate v ≠ none := by
      intro hnone
      rw [hnone] at hone
      exact absurd hone (by decide)
    obtain ⟨f, hf⟩ := Option.ne_none_iff_exists'.mp hmapped
    exact ⟨f, (hs.finds_iff hm hv.1).mpr hf⟩

/-- After a `kmalloc` and a write into the heap. -/
theorem vmmAllocPages_fresh_afterHeap :
    ∃ (k₀ k₁ k₂ : PagedKernel FreeFrames SaState) (m : PagedMemory FreeFrames),
      InMemory.kernelBoot (freeListPmm 0x1F00#32 0x100000#32) saOps sampleNames 0x200000#32
        (fun _ _ => 0#32) sampleFrames zeroBackend ⟨fun _ => .zero, 0⟩ = some k₀ ∧
      InMemory.pagedCall (freeListPmm 0x1F00#32 0x100000#32) saOps sampleNames.vmmAlloc k₀
        (.call (.kmalloc 100#32)) = some (k₁, 0xE0000010#32) ∧
      InMemory.pagedCall (freeListPmm 0x1F00#32 0x100000#32) saOps sampleNames.vmmAlloc k₁
        (.write 0xE0000010#32 7#32) = some (k₂, 0#32) ∧
      Vmm.InMemory.vmmAllocPages (freeListPmm 0x1F00#32 0x100000#32) 1#32 k₂.memory =
        some (m, 0xC2000000#32) ∧ FreshPages k₂.memory m 0xC2000000#32 1#32 := by
  obtain ⟨k₀, p₀, hboot, hready, h₀, hheap⟩ := kernelBoot_sample
  obtain ⟨hkmalloc, k₁, p₁, hcall₁, h₁⟩ := h₀.kmalloc hheap
  obtain ⟨hwrite, k₂, hcall₂, h₂⟩ := h₁.write
  obtain ⟨hroom, m, hm⟩ := h₂.allocPages_memory
  have hrun : (InMemory.kernelMachine (freeListPmm 0x1F00#32 0x100000#32) saOps sampleNames.vmmAlloc
      k₀).ReachableVia PagedKernel.InRoom k₂ := .step (.step .init hkmalloc.2 hcall₁) hwrite hcall₂
  obtain ⟨m', q, hres, hfresh⟩ := vmmAllocPages_fresh (sampleFrames_direct 0x1F00#32 (by decide)) hboot hrun
    (.inr hroom)
  obtain ⟨rfl, rfl⟩ := Prod.mk.inj (Option.some.inj (hm.symm.trans hres))
  exact ⟨k₀, k₁, k₂, m, hboot, hcall₁, hcall₂, hm, hfresh (by decide)⟩

/-- When the direct map ends where the heap starts, the first range is the start of the heap. -/
theorem vmmAllocPages_in_heap :
    ¬ ∀ (P : LawfulPmm FreeFrames) (B : VmaOps SaState) names name kernelEnd frames pmm backend state k₀ k
        count m q,
      InMemory.kernelBoot P B names kernelEnd frames pmm backend state = some k₀ →
      (InMemory.kernelMachine P B name k₀).Reachable k →
      Vmm.InMemory.vmmAllocPages P count k.memory = some (m, q) → q ≠ 0#32 →
      FreshPages k.memory m q count := by
  intro hall
  obtain ⟨p₀, hboot, hready, hsup, -, hnext, -⟩ :=
    kernelBootRegistered_sample 0x1FF00#32 0xE0000000#32 1 (by decide) rfl
  replace hnext : p₀.kernel.vmm.nextVaddr = kheapStart := hnext
  obtain ⟨k₀, hboot', h⟩ := (@kernelBoot_returns _ _ _ _ _ _ (fun _ _ => 0#32))
    (sampleFrames_direct 0x1FF00#32 (by decide)) hboot hready
  have hp : (Vmm.vmmAllocPages (freeListPmm 0x1FF00#32 0x100000#32) 1#32 p₀.kernel.vmm).2 =
      p₀.kernel.vmm.nextVaddr :=
    vmmAllocPages_supplied hsup hready (by rw [hnext]; decide) (by rw [hnext]; decide) (by decide)
      (by rw [hnext]; decide)
  have hrange : p₀.kernel.vmm.nextVaddr.toNat + (1#32).toNat * 4096 ≤ 2 ^ 32 := by
    rw [hnext]
    decide
  obtain ⟨m, hres, -⟩ := h.grounded.allocPages h.implements.memory (.inr ⟨by rw [hnext]; decide, hrange⟩)
  rw [hp, hnext] at hres
  have hfresh := hall _ _ _ sampleNames.vmmAlloc _ _ _ _ _ k₀ k₀ 1#32 m kheapStart hboot' ⟨[], [], rfl⟩ hres
    (by decide)
  exact hfresh.outside kheapStart ⟨by decide, le_rfl, by decide⟩ (by decide)

end Kernel

/-! ### All of the memory -/

section Account
variable {σ : Type*} {ρ : Type} {P : CountingPmm σ} {B : VmaOps ρ} {names : AreaNames} {kernelEnd mapEnd : U32}
  {frames : BitVec 20 → BitVec 10 → BitVec 32} {pmm : σ} {backend : HeapBackend} {state : ρ}
  {k k₀ : PagedKernel σ ρ} {p p₀ : RegisteredState σ ρ} {D : U32 → Prop} {base : ℕ}

/-- A page that `vmm_alloc_pages` or the heap has mapped and not released. -/
def PagedKernel.Mapped (k : PagedKernel σ ρ) (v : U32) : Prop :=
  v ∈ k.heapPages ∨ ∃ r ∈ k.live, PagesOf r.1 r.2 v

/-- A page that the kernel holds: one of the direct map, of the heap or of a live range. -/
def PagedKernel.Holds (mapEnd : U32) (k : PagedKernel σ ρ) (v : U32) : Prop :=
  (kernelVirtOffset ≤ v ∧ v - kernelVirtOffset < mapEnd) ∨ k.Mapped v

/-- The number of page tables. -/
def PagedKernel.tableCount (k : PagedKernel σ ρ) : ℕ :=
  ((Finset.range 1024).filter fun i => IsPresent (k.memory.pd (BitVec.ofNat 32 i))).card

/-- **The kernel's memory is accounted for**: an access reaches memory exactly when it is the kernel's and
its page is held; the direct map is where it was and the other pages that are held have distinct frames,
which are in use and hold no page table; the pages of a range that was given back are not held; and the
free frames, the page tables, the pages of the heap and those of the live ranges add up to what they were
at the start. -/
structure PagedKernel.Accounted (P : CountingPmm σ) (mapEnd : U32) (k₀ k : PagedKernel σ ρ) : Prop where
  reaches : ∀ wp (a : Access), (∃ x, a.outcome wp (k.memory.tables.walk (pageOf a.address)) =
    .reaches x) ↔ a.user = false ∧ k.Holds mapEnd (pageAddr (pageOf a.address))
  direct : ∀ f, f.PageAligned → f < mapEnd → k.memory.Finds (physToVirt f) f
  frame : ∀ v, k.Mapped v → ∃ f, k.memory.Finds v f ∧ P.InUse k.memory.pmm f ∧ ¬ k.memory.IsTable f
  distinct : ∀ v w f, k.Mapped v → k.Mapped w → k.memory.Finds v f → k.memory.Finds w f → v = w
  returned : ∀ r ∈ k.pages, r ∉ k.live → ∀ v, PagesOf r.1 r.2 v → ¬ k.Holds mapEnd v
  count : (P.freePages k.memory.pmm).toNat + k.tableCount + k.heapPages.length + pageTotal k.live =
    (P.freePages k₀.memory.pmm).toNat + k₀.tableCount + k₀.heapPages.length + pageTotal k₀.live

/-- The pages of the registered areas and of the live ranges are the same in both models. -/
theorem PagedKernel.Implements.mapped_iff (h : k.Implements p) {v : U32} : k.Mapped v ↔ p.Mapped v := by
  unfold PagedKernel.Mapped RegisteredState.Mapped
  rw [h.heapPages, h.live]

/-- So are the pages that are held. -/
theorem PagedKernel.Implements.holds_iff (h : k.Implements p) {v : U32} :
    k.Holds mapEnd v ↔ p.Holds mapEnd v := by
  unfold PagedKernel.Holds RegisteredState.Holds
  rw [h.mapped_iff]

/-- And the number of page tables. -/
theorem PagedKernel.Implements.tableCount (h : k.Implements p) : k.tableCount = p.kernel.vmm.tableCount := by
  unfold PagedKernel.tableCount VmmState.tableCount
  rw [h.memory.pd]

/-- What the account over separate tables says about the memory. -/
theorem PagedKernel.Refines.accounted (h : k.Refines p P.toLawfulPmm D base) (h₀ : k₀.Implements p₀)
    (halign : ∀ v, p.Mapped v → v.PageAligned) (hacc : MemoryAccounted P mapEnd p₀ p) :
    PagedKernel.Accounted P mapEnd k₀ k := by
  have hk := h.implements
  have hready := h.grounded.anchored.ready
  have hfinds : ∀ v f, v.PageAligned → (k.memory.Finds v f ↔ vmmGetPhysical v p.kernel.vmm = some f) := by
    intro v f hv
    rw [h.grounded.finds_iff hk.memory hv, vmmGetPhysical_eq, if_pos ⟨hready, hv⟩]
  refine ⟨fun wp a => ?_, fun f hf hlt => ?_, fun v hv => ?_, fun v w f hv hw hvf hwf => ?_,
    fun r hr hnot v hv => ?_, ?_⟩
  · rw [hk.memory.walk, hk.holds_iff]
    exact hacc.reaches wp a
  · exact (hfinds _ f (physToVirt_aligned hf)).mpr (hacc.direct f hf hlt)
  · have hv' := hk.mapped_iff.mp hv
    obtain ⟨f, hf, huse, htable⟩ := hacc.frame v hv'
    refine ⟨f, (hfinds v f (halign v hv')).mpr hf, hk.memory.pmm ▸ huse, ?_⟩
    rw [hk.memory.isTable_iff]
    exact htable
  · have hv' := hk.mapped_iff.mp hv
    have hw' := hk.mapped_iff.mp hw
    refine hacc.distinct v w hv' hw' ?_
    rw [(hfinds v f (halign v hv')).mp hvf, (hfinds w f (halign w hw')).mp hwf]
  · rw [hk.holds_iff]
    rw [hk.pages] at hr
    rw [hk.live] at hnot
    exact hacc.returned r hr hnot v hv
  · rw [hk.tableCount, h₀.tableCount, hk.memory.pmm, h₀.memory.pmm, hk.heapPages, h₀.heapPages, hk.live,
      h₀.live]
    exact hacc.count

/-- **The kernel's memory is accounted for in every run** from the start on of `kmalloc`, `kfree`,
`vmm_alloc_pages` and `vmm_free_pages` and of writes that do not go through the pointers to page tables,
whatever the backends, when the direct map ends in front of the heap window, the frames that the allocator
gives are below its end and the requests for pages that pass the checks have room. -/
theorem memory_accounted (hfits : FitsBelowHeap P.toLawfulPmm kernelEnd pmm)
    (hlow : ∀ f, ¬ P.InUse pmm f → f < vmmMapEnd P.toPmmOps kernelEnd pmm)
    (hboot : InMemory.kernelBoot P.toLawfulPmm B names kernelEnd frames pmm backend state = some k₀)
    (hready : k₀.memory.ready)
    (hk : (InMemory.kernelMachine P.toLawfulPmm B names.vmmAlloc k₀).ReachableVia PagedKernel.InRoom k) :
    PagedKernel.Accounted P (vmmMapEnd P.toPmmOps kernelEnd pmm) k₀ k := by
  obtain ⟨p₀, hboot₀, h₀⟩ := kernelBoot_refines (P := P.toLawfulPmm)
    (fun f hf => .of_lt hfits.mapEnd_le (hlow f hf)) hboot hready
  obtain ⟨p, hp, h⟩ := (@PagedKernel.reachable_refines _ _ _ _ _ _ _ _ _ _ _
    fun p call => InRoom p.kernel call)
    (fun _ _ hcall => hcall) (fun _ _ _ hk hcall => hk.inRoom_iff.mp hcall) h₀ hk
  have hready₀ := h₀.implements.memory.ready ▸ hready
  obtain ⟨halign, hacc⟩ := registeredMachine_accounted hfits hboot₀ hready₀ hp
  exact h.accounted h₀.implements halign hacc

/-- After a `kmalloc`, a write and a `vmm_alloc_pages`. -/
theorem memory_accounted_afterAlloc :
    ∃ k₀ k₁ k₂ k₃ : PagedKernel FreeFrames SaState,
      InMemory.kernelBoot (freeListPmm 0x1F00#32 0x100000#32) saOps sampleNames 0x200000#32
        (fun _ _ => 0#32) sampleFrames zeroBackend ⟨fun _ => .zero, 0⟩ = some k₀ ∧
      InMemory.pagedCall (freeListPmm 0x1F00#32 0x100000#32) saOps sampleNames.vmmAlloc k₀
        (.call (.kmalloc 100#32)) = some (k₁, 0xE0000010#32) ∧
      InMemory.pagedCall (freeListPmm 0x1F00#32 0x100000#32) saOps sampleNames.vmmAlloc k₁
        (.write 0xE0000010#32 7#32) = some (k₂, 0#32) ∧
      InMemory.pagedCall (freeListPmm 0x1F00#32 0x100000#32) saOps sampleNames.vmmAlloc k₂
        (.call (.allocPages 1#32)) = some (k₃, 0xC2000000#32) ∧
      k₃.Mapped 0xC2000000#32 ∧
      PagedKernel.Accounted (freeListAccounts 0x1F00#32 0x100000#32) 0x2000000#32 k₀ k₃ := by
  obtain ⟨k₀, p₀, hboot, hready, h₀, hheap⟩ := kernelBoot_sample
  obtain ⟨hkmalloc, k₁, p₁, hcall₁, h₁⟩ := h₀.kmalloc hheap
  obtain ⟨hwrite, k₂, hcall₂, h₂⟩ := h₁.write
  obtain ⟨hroom, k₃, hcall₃, hlive⟩ := h₂.allocPages
  have hcond : k₂.InRoom (.call (.allocPages 1#32)) := .inr hroom
  have hmapped : k₃.Mapped 0xC2000000#32 := by
    refine .inr ⟨(0xC2000000#32, 1#32), ?_, by decide, le_rfl, by decide⟩
    rw [hlive]
    exact List.mem_singleton_self _
  exact ⟨k₀, k₁, k₂, k₃, hboot, hcall₁, hcall₂, hcall₃, hmapped,
    memory_accounted (P := freeListAccounts 0x1F00#32 0x100000#32) (by unfold FitsBelowHeap; decide)
      (fun f hf => (sampleFrames_direct 0x1F00#32 (by decide) f hf).1) hboot hready
      (.step (.step (.step .init hkmalloc.2 hcall₁) hwrite hcall₂) hcond hcall₃)⟩

end Account

end Microkernel.Kernel
