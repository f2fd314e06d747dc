import Microkernel.Kernel.Memory
import Microkernel.Vma.Area

/-! # The registry of the kernel's areas

`vma.c` hands the calls to the registered backend once `vma_init` has run. `vmm_alloc_pages` registers the
range that it returns, and `vmm_free_pages` takes the area that starts at its pointer out again; neither
looks at the answer.

* **`VmaRegistry`** — the registry with any backend that refines a set of areas, behind the flag
  `g_vma_ready`.
* **`RegisteredState`, `registeredCall`** — the state of `Kernel/Memory` with the registry beside it, and
  its calls: each does what it does there and then adds an area, takes one out or neither.
* **`AreaNames`** — the names are pointers to constants, and stay parameters.
-/

namespace Microkernel.Kernel

open Heap Vma Vmm

/-- The static data of `vma.c` and of the registered backend. Without a backend `vma_init` does not set
`g_vma_ready`. -/
structure VmaRegistry (ρ : Type) where
  /-- `g_vma_ready`. -/
  ready : Bool
  /-- The static data of the backend. -/
  state : ρ

/-- `VMA_READ`. -/
def vmaRead : U32 := 0x01#32

/-- `VMA_WRITE`. -/
def vmaWrite : U32 := 0x02#32

/-- `VMA_EXEC`. -/
def vmaExec : U32 := 0x04#32

section Dispatch
variable {ρ : Type} (B : VmaOps ρ)

/-- `vma_init()`. -/
def vmaInit (r : VmaRegistry ρ) : VmaRegistry ρ := ⟨true, B.init r.state⟩

/-- `vma_add(start, end, flags, name)`. -/
def vmaAdd (start stop flags : U32) (name : NamePtr) (r : VmaRegistry ρ) :
    Option (VmaRegistry ρ × Int) :=
  if ¬ r.ready then some (r, -1)
  else (B.add r.state start stop flags name).map fun a => (⟨r.ready, a.1⟩, a.2)

/-- `vma_remove(start)`. -/
def vmaRemove (start : U32) (r : VmaRegistry ρ) : Option (VmaRegistry ρ × Int) :=
  if ¬ r.ready then some (r, -1)
  else (B.remove r.state start).map fun a => (⟨r.ready, a.1⟩, a.2)

/-- `vma_find(addr)`. -/
def vmaFind (addr : U32) (r : VmaRegistry ρ) : Option (Option VmArea) :=
  if ¬ r.ready then some none else B.find r.state addr

end Dispatch

section Pages
variable {σ : Type*} {ρ : Type} (P : LawfulPmm σ) (B : VmaOps ρ)

/-- `vmm_alloc_pages(count)` with step 5, the registration of the range under `name`. -/
def vmmAllocPagesRegistered (name : NamePtr) (count : U32) (s : VmmState σ) (r : VmaRegistry ρ) :
    Option ((VmmState σ × VmaRegistry ρ) × U32) :=
  let ret := vmmAllocPages P count s
  if ret.2 ≠ 0#32 ∧ r.ready then
    (vmaAdd B ret.2 (ret.2 + count * vmmPageSize) (vmaRead ||| vmaWrite) name r).map fun a =>
      ((ret.1, a.1), ret.2)
  else some ((ret.1, r), ret.2)

/-- `vmm_free_pages(vaddr, count)` with the removal of the area. -/
def vmmFreePagesRegistered (vaddr count : U32) (s : VmmState σ) (r : VmaRegistry ρ) :
    Option (VmmState σ × VmaRegistry ρ) :=
  if vaddr = 0#32 ∨ count = 0#32 ∨ ¬ s.ready then some (s, r)
  -- the area is removed by its start, whatever its end is
  else if r.ready then
    (vmaRemove B vaddr r).map fun a => (vmmFreePages P vaddr count s, a.1)
  else some (vmmFreePages P vaddr count s, r)

end Pages

/-! ### The kernel with its registry -/

/-- The names under which areas are registered: `"direct-map"`, `"kheap"` and `"vmm-alloc"`. -/
structure AreaNames where
  directMap : NamePtr
  kheap : NamePtr
  vmmAlloc : NamePtr

/-- The kernel's memory with the registry, the results of `vmm_alloc_pages` that were not given back, and
the pages that the heap has mapped, which it never unmaps. -/
structure RegisteredState (σ : Type*) (ρ : Type) where
  /-- The memory; its `pages` are all results of `vmm_alloc_pages`. -/
  kernel : KernelState σ
  /-- The registry. -/
  registry : VmaRegistry ρ
  /-- The live ranges. -/
  live : List (U32 × U32)
  /-- The pages of the heap. -/
  heapPages : List U32

section Machine
variable {σ : Type*} {ρ : Type} (P : LawfulPmm σ) (B : VmaOps ρ)

/-- The pages that the loop of `kmalloc_init` maps, from page `i` on. -/
def mappedPages (start : U32) : ℕ → U32 → VmmState σ → List U32
  | 0, _, _ => []
  | n + 1, i, s =>
      let ret := mapFreshPage P (start + i * vmmPageSize) s
      if ret.2.2 then (start + i * vmmPageSize) :: mappedPages start n (i + 1#32) ret.1 else []

/-- The memory set-up of `kmain` from `vmm_init` on: the heap, then the registration of the direct map and
of the first pages of the heap. -/
def kernelBootRegistered (names : AreaNames) (kernelEnd : U32) (table : U32 → U32 → U32) (pmm : σ)
    (backend : HeapBackend) (state : ρ) : Option (RegisteredState σ ρ) :=
  (vmmInit P.toPmmOps kernelEnd (vmmStatic table pmm)).bind fun s =>
    let s := vmmUnmapIdentity s
    let ret := kmallocInit P s backend.static
    let registry := vmaInit B ⟨false, state⟩
    (vmaAdd B kernelVirtOffset ret.1.directMapEnd (vmaRead ||| vmaWrite ||| vmaExec) names.directMap
      registry).bind fun a =>
    -- the first pages of the heap; those it maps later are not registered
    (vmaAdd B kheapStart (kheapStart + kheapInitialPages * vmmPageSize) (vmaRead ||| vmaWrite)
      names.kheap a.1).map fun a =>
    { kernel := ⟨ret.1, ret.2, []⟩
      registry := a.1
      live := []
      heapPages := mappedPages P kheapStart kheapInitialPages.toNat 0#32 s }

/-- The page that `kmalloc(size)` maps. -/
def heapRequest (size : U32) (k : KernelState σ) : Option U32 :=
  match k.heap with
  | .firstFit _ => none
  | .slab c => if (slabRequestPage P size c.heap k.vmm).2.2 then some c.heap.slabBrk else none

/-- One call. `vmm_free_pages` gets the pointer and the count of an earlier result. -/
def registeredCall (name : NamePtr) (k : RegisteredState σ ρ) :
    KernelCall → Option (RegisteredState σ ρ × U32)
  | .kmalloc size =>
      (kmalloc P size k.kernel).map fun r =>
        ({ k with
          kernel := r.1
          heapPages := (heapRequest P size k.kernel).toList ++ k.heapPages }, r.2)
  | .kfree ptr => (kfree ptr k.kernel).map fun r => ({ k with kernel := r.1 }, r.2)
  | .allocPages count =>
      (vmmAllocPagesRegistered P B name count k.kernel.vmm k.registry).map fun r =>
        let put := fun l => if r.2 = 0#32 then l else (r.2, count) :: l
        ({ k with
          kernel := { k.kernel with vmm := r.1.1, pages := put k.kernel.pages }
          registry := r.1.2
          live := put k.live }, r.2)
  | .freePages vaddr count =>
      if k.kernel.pages.contains (vaddr, count) then
        (vmmFreePagesRegistered P B vaddr count k.kernel.vmm k.registry).map fun r =>
          ({ k with
            kernel := { k.kernel with vmm := r.1 }
            registry := r.2
            live := k.live.erase (vaddr, count) }, 0#32)
      else some (k, 0#32)

/-- The kernel from a state on, as a machine. -/
def registeredMachine (name : NamePtr) (k : RegisteredState σ ρ) :
    Machine (RegisteredState σ ρ) KernelCall U32 := ⟨k, registeredCall P B name⟩

end Machine

/-- A page that `vmm_alloc_pages` or the heap has mapped and not released. -/
def RegisteredState.Mapped {σ : Type*} {ρ : Type} (k : RegisteredState σ ρ) (v : U32) : Prop :=
  v ∈ k.heapPages ∨ ∃ r ∈ k.live, PagesOf r.1 r.2 v

/-- `vma_find` gives an area that contains the page. -/
def RegisteredState.Registers {σ : Type*} {ρ : Type} (B : VmaOps ρ) (k : RegisteredState σ ρ)
    (v : U32) : Prop :=
  ∃ a, vmaFind B v k.registry = some (some a) ∧ a.start ≤ v ∧ v.toNat + 4096 ≤ a.stop.toNat

end Microkernel.Kernel
