import Microkernel.Kernel.Memory
import Microkernel.Vmm.FrameSupply

/-! # The direct map and the heap

`vmm_init` maps the physical memory below `map_end`, at most 1 GiB, from `KERNEL_VIRT_OFFSET` on, and the
heap maps its pages from `KHEAP_START` on, which is 512 MiB further. `vmm_map_page` overwrites a present
entry, so the direct map stays in place when it ends in front of the heap.

* **`DirectMapped`** — the page tables lead from each of these addresses to the page below it.
* **`kernelMachine_directMap`** — by induction on a run of `kmalloc` and `kfree`, with the page tables
  apart from the memory that they map; `Kernel/PagedAccount` carries it over to physical memory.
-/

namespace Microkernel.Kernel

open Heap Vmm

section DirectMap
variable {σ : Type*} {P : LawfulPmm σ} {kernelEnd mapEnd : U32} {table : U32 → U32 → U32} {pmm : σ}
  {backend : HeapBackend} {f : U32}

/-- The kernel image and what the physical allocator manages end below 512 MiB, the distance from
`KERNEL_VIRT_OFFSET` to `KHEAP_START`. -/
def FitsBelowHeap (P : LawfulPmm σ) (kernelEnd : U32) (pmm : σ) : Prop :=
  kernelEnd ≤ 0x20000000#32 ∧
    P.managedBase pmm + P.totalPages pmm * vmmPageSize ≤ 0x20000000#32

/-- The mapped range is the larger of the two, at least 16 MiB, rounded up to a page. -/
theorem FitsBelowHeap.mapEnd_le (h : FitsBelowHeap P kernelEnd pmm) :
    (vmmMapEnd P.toPmmOps kernelEnd pmm).toNat ≤ 2 ^ 29 := by
  obtain ⟨hkernel, hpmm⟩ := h
  rw [BitVec.le_def, show (0x20000000#32).toNat = 2 ^ 29 from rfl] at hkernel hpmm
  have hend := vmmMapEnd_toNat P.toPmmOps kernelEnd pmm
  have hmax : max (max kernelEnd.toNat 0x1000000)
      (P.managedBase pmm + P.totalPages pmm * vmmPageSize).toNat ≤ 2 ^ 29 :=
    max_le (max_le hkernel (by decide)) hpmm
  have hmin := min_le_left (max (max kernelEnd.toNat 0x1000000)
    (P.managedBase pmm + P.totalPages pmm * vmmPageSize).toNat) 0x40000000
  omega

/-- **The direct map is in place**: every page below `mapEnd` is found behind `KERNEL_VIRT_OFFSET`. -/
structure DirectMapped (s : VmmState σ) (P : LawfulPmm σ) (mapEnd : U32) : Prop where
  wellFormed : s.WellFormed P.InUse
  ready : s.ready
  translate : ∀ f, f.PageAligned → f < mapEnd → s.translate (physToVirt f) = some f

/-- The address of a page of the direct map. -/
theorem physToVirt_toNat (hmax : mapEnd.toNat ≤ 2 ^ 30) (hlt : f < mapEnd) :
    (physToVirt f).toNat = 0xC0000000 + f.toNat := by
  rw [BitVec.lt_def] at hlt
  unfold physToVirt kernelVirtOffset
  bv_omega

/-- Pages of the heap lie behind the direct map, and the first two pages lie in front. -/
theorem DirectMapped.mapFresh {s : VmmState σ} (h : DirectMapped s P mapEnd)
    (hmax : mapEnd.toNat ≤ 2 ^ 29) {v : U32} (hv : HeapMaps v) :
    DirectMapped (mapFreshPage P v s).1 P mapEnd := by
  obtain ⟨s', phys, ok, hres, hwf, hext, hcase⟩ := mapFreshPage_spec h.wellFormed v
  rw [hres]
  refine ⟨hwf, hext.ready.trans h.ready, fun f hf hlt => ?_⟩
  have hnat := physToVirt_toNat (hmax.trans (by decide)) hlt
  rcases hcase with ⟨-, hentry⟩ | ⟨-, -, -, -, -, -, -, htrans⟩
  · rw [VmmState.translate_eq, hentry, ← VmmState.translate_eq]
    exact h.translate f hf hlt
  · have hne : physToVirt f ≠ v := by
      rintro rfl
      rw [BitVec.lt_def] at hlt
      rcases hv with ⟨hge, -⟩ | hle
      · rw [BitVec.le_def, show kheapStart.toNat = 0xE0000000 from rfl] at hge
        omega
      · omega
    rw [htrans _ (physToVirt_aligned hf), if_neg hne]
    exact h.translate f hf hlt

/-- The direct map is in place after `vmm_init` and `vmm_unmap_identity`. -/
theorem vmmInit_directMapped {s : VmmState σ}
    (hinit : vmmInit P.toPmmOps kernelEnd (vmmStatic table pmm) = some s) (hready : s.ready) :
    DirectMapped (vmmUnmapIdentity s) P (vmmMapEnd P.toPmmOps kernelEnd pmm) := by
  obtain ⟨s₀, hinit₀, hwf, -, hboot, -⟩ := vmmInit_boot P.lawful kernelEnd table pmm
  obtain rfl := Option.some.inj (hinit.symm.trans hinit₀)
  obtain ⟨hwf', hready', htrans⟩ := vmmUnmapIdentity_spec hwf
  obtain ⟨-, hmax⟩ := vmmMapEnd_spec P.toPmmOps kernelEnd pmm
  refine ⟨hwf', hready'.trans hready, fun f hf hlt => ?_⟩
  have hnat := physToVirt_toNat hmax hlt
  have hhigh : ¬ physToVirt f < kernelVirtOffset := by
    rw [BitVec.lt_def, show kernelVirtOffset.toNat = 0xC0000000 from rfl]
    omega
  have hnotLow : ¬ physToVirt f < vmmMapEnd P.toPmmOps kernelEnd pmm := by
    rw [BitVec.lt_def]
    omega
  have hback : physToVirt f - kernelVirtOffset = f := BitVec.add_sub_cancel ..
  rw [htrans hready, if_neg hhigh, (hboot hready).1 _ (physToVirt_aligned hf), FlatMap.boot,
    if_neg hnotLow, if_pos ⟨BitVec.not_lt.mp hhigh, by rw [hback]; exact hlt⟩, hback]

end DirectMap

/-! ### Runs of the heap -/

/-- A call of the heap. -/
def KernelCall.IsHeap : KernelCall → Prop
  | .kmalloc _ => True
  | .kfree _ => True
  | _ => False

section Runs
variable {σ : Type*} {P : LawfulPmm σ} {kernelEnd : U32} {table : U32 → U32 → U32} {pmm : σ}
  {backend : HeapBackend} {s₀ s : KernelState σ} {f : U32}

/-- **The direct map survives heap use** as long as it ends in front of the heap: whatever the backends
and the memory, after the start and any calls of `kmalloc` and `kfree` every page below `map_end` is still
found behind `KERNEL_VIRT_OFFSET`. -/
theorem kernelMachine_directMap (hfits : FitsBelowHeap P kernelEnd pmm)
    (hboot : kernelBoot P kernelEnd table pmm backend = some s₀) (hready : s₀.vmm.ready)
    (hs : (kernelMachine P s₀).ReachableVia (fun _ call => call.IsHeap) s) (hf : f.PageAligned)
    (hlt : f < vmmMapEnd P.toPmmOps kernelEnd pmm) :
    vmmGetPhysical (physToVirt f) s.vmm = some f := by
  have hmax := hfits.mapEnd_le
  obtain ⟨t, hinit, rfl⟩ := kernelBoot_cases hboot
  obtain ⟨t', hinit', hwf, -⟩ := vmmInit_boot P.lawful kernelEnd table pmm
  obtain rfl := Option.some.inj (hinit.symm.trans hinit')
  obtain ⟨hwf', hready', -⟩ := vmmUnmapIdentity_spec hwf
  have hstatic := backend.static_sound
  have ht : t.ready := by
    rw [← hready', ← (kmallocInit_static hwf' hstatic).1]
    exact hready
  -- the invariant of the run
  have hstart := kmallocInit_invariant
    (I := fun u => DirectMapped u P (vmmMapEnd P.toPmmOps kernelEnd pmm))
    (vmmInit_directMapped hinit ht) (fun v u hv _ hu => hu.mapFresh hmax (.inl hv)) backend.static
    hstatic
  have h := hs.invariant
    (I := fun s => DirectMapped s.vmm P (vmmMapEnd P.toPmmOps kernelEnd pmm) ∧ s.heap.Sound) hstart
    (by
      rintro u u' call answer ⟨hu, hheap⟩ hcall hres
      cases call with
      | kmalloc size =>
        obtain ⟨hheap', -, hvmm | ⟨v, hv, hvmm⟩⟩ := kmalloc_cases hheap hres
        · rw [hvmm]
          exact ⟨hu, hheap'⟩
        · rw [hvmm]
          exact ⟨hu.mapFresh hmax hv, hheap'⟩
      | kfree ptr =>
        obtain ⟨hheap', -, hvmm⟩ := kfree_cases hheap hres
        rw [hvmm]
        exact ⟨hu, hheap'⟩
      | allocPages count => exact absurd hcall id
      | freePages vaddr count => exact absurd hcall id)
  rw [vmmGetPhysical_eq, if_pos ⟨h.1.ready, physToVirt_aligned hf⟩]
  exact h.1.translate f hf hlt

/-! ### A direct map that reaches the heap -/

/-- With enough frames the start succeeds: the page tables are ready, the first page of the heap has a frame
and the heap is initialised. -/
theorem kernelBoot_supplied {k : ℕ} (h : P.Supplies (2064 + k) pmm) (kernelEnd : U32)
    (table : U32 → U32 → U32) (backend : HeapBackend) :
    ∃ s₀, kernelBoot P kernelEnd table pmm backend = some s₀ ∧ s₀.vmm.ready ∧
      s₀.vmm.Supplied P k ∧ s₀.vmm.Backed P pmm kheapStart ∧
      s₀.heap = backend.static.init kheapStart (kheapInitialPages * vmmPageSize) := by
  have hsplit : 2064 + k = 2048 + (k + 16) := by omega
  rw [hsplit] at h
  obtain ⟨t, hinit, hready, hsup⟩ := vmmInit_supplied h kernelEnd table
  obtain ⟨t', hinit', hwf, hp, -⟩ := vmmInit_boot P.lawful kernelEnd table pmm
  obtain rfl := Option.some.inj (hinit.symm.trans hinit')
  obtain ⟨hwf', hready', -⟩ := vmmUnmapIdentity_spec hwf
  have hstart : kheapStart.PageAligned := by decide
  obtain ⟨u, hloop, hu⟩ := mapFreshPages_supplied hstart 16 (i := 0#32) hsup
  rw [← (vmmUnmapIdentity_rest t).2.2.2.2] at hp
  obtain ⟨u', ok, hloop', -, hbacked⟩ := mapFreshPages_backed hstart 16 (i := 0#32) hwf' hp
  obtain ⟨rfl, rfl⟩ := Prod.mk.inj (hloop.symm.trans hloop')
  have hinit₁ : kmallocInit P (vmmUnmapIdentity t) backend.static =
      (u, backend.static.init kheapStart (kheapInitialPages * vmmPageSize)) := by
    unfold kmallocInit
    rw [show kheapInitialPages.toNat = 16 from rfl, hloop]
    rfl
  refine ⟨_, congrArg (Option.map _) hinit, ?_, ?_, ?_, congrArg Prod.snd hinit₁⟩
  · exact ((kmallocInit_static hwf' backend.static_sound).1.trans hready').trans hready
  · show VmmState.Supplied (kmallocInit P (vmmUnmapIdentity t) backend.static).1 P k
    rw [hinit₁]
    exact hu
  · show VmmState.Backed (kmallocInit P (vmmUnmapIdentity t) backend.static).1 P pmm kheapStart
    rw [hinit₁]
    exact hbacked rfl 0 (by decide)

end Runs

/-- The static data of the first-fit backend over memory that holds zeros. -/
def zeroBackend : HeapBackend := .firstFit fun _ => ⟨0#32, false, 0#32, 0#32⟩

end Microkernel.Kernel
