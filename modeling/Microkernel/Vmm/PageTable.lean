import Microkernel.Word
import Mathlib.Logic.Function.Basic

/-! # Two-level page tables

`vmm.c`: the kernel's page directory and the page tables it points to. A page table is reached through
the direct map, so the tables are kept by the virtual address the code uses. The frames for new tables
come from the physical allocator, whichever backend is registered.

* **`PmmOps`** — the physical allocator as three operations.
* **`VmmState`** — the directory, the tables, the flag and the watermark.
* **`vmmMapPage`, `vmmUnmapPage`, `vmmInit`** — the functions of `vmm.c`. The invalidations and the loads
  of `CR3` that they make are in `Vmm/CachedTranslations`; what the pointers to the tables lead to in
  memory is in `Vmm/PagedMemory`.
-/

namespace Microkernel.Vmm

open Function (update)

/-- The operations of `pmm.c` that the virtual memory manager calls, over the state `σ` of the
registered backend. -/
structure PmmOps (σ : Type*) where
  /-- `pmm_alloc_page`: the address of a frame, or `NULL`. -/
  allocPage : σ → U32 × σ
  /-- `pmm_total_pages`. -/
  totalPages : σ → U32
  /-- `pmm_managed_base`. -/
  managedBase : σ → U32

/-- The static data of `vmm.c`, the page tables, and the state of the physical allocator. -/
structure VmmState (σ : Type*) where
  /-- `g_kernel_pd.entries`. -/
  pd : U32 → U32
  /-- The entries of the page table at a virtual address. -/
  table : U32 → U32 → U32
  /-- `g_vmm_ready`. -/
  ready : Bool
  /-- `g_next_vaddr`. -/
  nextVaddr : U32
  /-- `g_direct_map_end`. -/
  directMapEnd : U32
  /-- The physical allocator. -/
  pmm : σ

/-- `PTE_PRESENT` and `PDE_PRESENT`. -/
def ptePresent : U32 := 0x001#32

/-- `PTE_WRITABLE` and `PDE_WRITABLE`. -/
def pteWritable : U32 := 0x002#32

/-- `PTE_USER` and `PDE_USER`. -/
def pteUser : U32 := 0x004#32

/-- `pd_index(virt)`. -/
def pdIndex (virt : U32) : U32 := (virt >>> 22) &&& 0x3FF#32

/-- `pt_index(virt)`. -/
def ptIndex (virt : U32) : U32 := (virt >>> 12) &&& 0x3FF#32

/-- The present bit of an entry. -/
def IsPresent (e : U32) : Prop := e &&& ptePresent ≠ 0#32

instance (e : U32) : Decidable (IsPresent e) := inferInstanceAs (Decidable (_ ≠ _))

/-- The frame an entry points to: `e & ~0xFFF`. -/
def entryFrame (e : U32) : U32 := e &&& ~~~ 0xFFF#32

/-- The loop of `memzero_page` over the first `n` words. -/
def memzeroPage (p : U32 → U32) : ℕ → U32 → U32
  | 0 => p
  | n + 1 => update (memzeroPage p n) (BitVec.ofNat 32 n) 0#32

section Functions
variable {σ : Type*} (ops : PmmOps σ)

/-- `vmm_ensure_page_table(pd_idx)`: the page table of a directory entry, or `NULL`. -/
def vmmEnsurePageTable (pdIdx : U32) (s : VmmState σ) : VmmState σ × U32 :=
  let pde := s.pd pdIdx
  if IsPresent pde then (s, physToVirt (entryFrame pde))
  else
    let (ptPhys, pmm) := ops.allocPage s.pmm
    let s := { s with pmm := pmm }
    if ptPhys = 0#32 then (s, 0#32)
    else
      let ptVirt := physToVirt ptPhys
      -- cleared through its pointer before the directory names it
      let s := { s with table := update s.table ptVirt (memzeroPage (s.table ptVirt) 1024) }
      let s := { s with pd := update s.pd pdIdx (ptPhys ||| ptePresent ||| pteWritable) }
      (s, ptVirt)

/-- `vmm_map_page(virt, phys, flags)`: `0`, or `-1` when it is rejected. -/
def vmmMapPage (virt phys flags : U32) (s : VmmState σ) : VmmState σ × Int :=
  if ¬ virt.PageAligned ∨ ¬ phys.PageAligned then (s, -1)
  else
    let pdi := pdIndex virt
    let pti := ptIndex virt
    let (s, pt) := vmmEnsurePageTable ops pdi s
    if pt = 0#32 then (s, -1)
    else
      let s :=
        -- a page of user mode needs the bit at both levels
        if flags &&& pteUser ≠ 0#32 then { s with pd := update s.pd pdi (s.pd pdi ||| pteUser) }
        else s
      let s :=
        { s with
          table := update s.table pt
            (update (s.table pt) pti (entryFrame phys ||| (flags &&& 0xFFF#32))) }
      (s, 0)

/-- `vmm_unmap_page(virt)`. -/
def vmmUnmapPage (virt : U32) (s : VmmState σ) : VmmState σ :=
  if ¬ virt.PageAligned then s
  else
    let pde := s.pd (pdIndex virt)
    if ¬ IsPresent pde then s
    else
      let pt := physToVirt (entryFrame pde)
      { s with table := update s.table pt (update (s.table pt) (ptIndex virt) 0#32) }

/-- The loop of `vmm_unmap_identity` over the first `n` directory entries. -/
def unmapIdentityLoop (pd : U32 → U32) : ℕ → U32 → U32
  | 0 => pd
  | n + 1 =>
      let pd := unmapIdentityLoop pd n
      if IsPresent (pd (BitVec.ofNat 32 n)) then update pd (BitVec.ofNat 32 n) 0#32 else pd

/-- `vmm_unmap_identity()`. -/
def vmmUnmapIdentity (s : VmmState σ) : VmmState σ :=
  if ¬ s.ready then s
  else { s with pd := unmapIdentityLoop s.pd (pdIndex kernelVirtOffset).toNat }

/-- `vmm_get_physical(virt, &phys)`, where `none` is `-1`. -/
def vmmGetPhysical (virt : U32) (s : VmmState σ) : Option U32 :=
  if ¬ s.ready then none
  else if ¬ virt.PageAligned then none
  else
    let pde := s.pd (pdIndex virt)
    if ¬ IsPresent pde then none
    else
      let pte := s.table (physToVirt (entryFrame pde)) (ptIndex virt)
      if ¬ IsPresent pte then none else some (entryFrame pte)

/-- `vmm_is_mapped(virt)`. -/
def vmmIsMapped (virt : U32) (s : VmmState σ) : Int :=
  if ¬ s.ready then -1
  else if ¬ virt.PageAligned then -1
  else
    let pde := s.pd (pdIndex virt)
    if ¬ IsPresent pde then 0
    else
      let pte := s.table (physToVirt (entryFrame pde)) (ptIndex virt)
      if IsPresent pte then 1 else 0

/-! ### Initialisation -/

/-- `map_end` in `vmm_init`, from the end of the kernel image and what the physical allocator says. -/
def vmmMapEnd (kernelEnd : U32) (pmm : σ) : U32 :=
  let mapEnd := kernelEnd
  let minMap := 16#32 * 1024#32 * 1024#32
  let mapEnd := if mapEnd < minMap then minMap else mapEnd
  let pmmEnd := ops.managedBase pmm + ops.totalPages pmm * vmmPageSize
  -- a gap between the regions is not counted
  let mapEnd := if pmmEnd > mapEnd then pmmEnd else mapEnd
  -- the kernel half holds 1 GiB
  let mapEnd := if mapEnd > 0x40000000#32 then 0x40000000#32 else mapEnd
  (mapEnd + vmmPageSize - 1#32) &&& ~~~ (vmmPageSize - 1#32)

/-- The mapping loop of `vmm_init` from `addr` on, with the rounds it may take. The answer is whether
all pages were mapped; `none` when the rounds do not suffice. -/
def vmmInitLoop (mapEnd : U32) : ℕ → U32 → VmmState σ → Option (VmmState σ × Bool)
  | 0, _, _ => none
  | n + 1, addr, s =>
      if addr < mapEnd then
        let ret := vmmMapPage ops addr addr (ptePresent ||| pteWritable) s
        if ret.2 ≠ 0 then some (ret.1, false)
        else
          -- the second mapping of the page, in the kernel half
          let virtHigh := addr + kernelVirtOffset
          let ret := vmmMapPage ops virtHigh addr (ptePresent ||| pteWritable) ret.1
          if ret.2 ≠ 0 then some (ret.1, false)
          else vmmInitLoop mapEnd n (addr + vmmPageSize) ret.1
      else some (s, true)

/-- `vmm_init()`, where the kernel image ends at `kernelEnd`. -/
def vmmInit (kernelEnd : U32) (s : VmmState σ) : Option (VmmState σ) :=
  let s := { s with pd := memzeroPage s.pd 1024 }
  let mapEnd := vmmMapEnd ops kernelEnd s.pmm
  (vmmInitLoop ops mapEnd (2 ^ 20) 0#32 s).map fun (s, mapped) =>
    if ¬ mapped then s
    else
      let s := { s with ready := true }
      let directMapTop := kernelVirtOffset + mapEnd
      let align4m := 0x400000#32
      { s with
        nextVaddr := (directMapTop + align4m - 1#32) &&& ~~~ (align4m - 1#32)
        directMapEnd := directMapTop }

end Functions

end Microkernel.Vmm
