import Microkernel.Pmm.MemoryMap
import Microkernel.Vmm.CachedTranslations
import Microkernel.Vmm.FrameAccount

/-! # The page tables in physical memory

In `VmmState` a page table is kept under the pointer that the code uses. The code writes through that
pointer, `PHYS_TO_VIRT` of the frame, and reaches whatever frame the processor finds there, while the
processor reads the frame itself. Here both happen in one memory.

* **`PagedMemory`** is the static data of `vmm.c` with the physical memory, and what has been done to it.
* **`PagedMemory.shows`** is the frame behind a page: the boot directory's until `vmm_init` has loaded the
  new one, and then the one that the walk of the tables finds (`CachedTranslations` shows that no cached
  translation differs from it). Ring 0 writes wherever it reads, as `CR0.WP` is never set.
* **`InMemory`** has the functions of `vmm.c` over this memory; they answer `none` on a page fault.
* **`PagedMemory.Reaches`** says that the pointer to a frame leads to the frame. -/

namespace Microkernel.Vmm

open Function (update)
open Paging (pageOf dirIndex tableIndex frameOf Event)
open Pmm (bootTranslate)

/-- The static data of `vmm.c`, the physical memory, and the state of the physical allocator. -/
structure PagedMemory (σ : Type*) where
  /-- `g_kernel_pd.entries`. -/
  pd : U32 → U32
  /-- The words of each frame. -/
  frames : BitVec 20 → BitVec 10 → BitVec 32
  /-- `g_vmm_ready`. -/
  ready : Bool
  /-- `g_next_vaddr`. -/
  nextVaddr : U32
  /-- `g_direct_map_end`. -/
  directMapEnd : U32
  /-- The physical allocator. -/
  pmm : σ
  /-- The writes into the directory and the memory since the directory was loaded, and what was
  invalidated, in their order. -/
  events : List Event

namespace PagedMemory
variable {σ : Type*}

/-- The tables as the processor reads them: a page table is the frame that its directory entry names. -/
def tables (m : PagedMemory σ) : Paging.Tables := ⟨fun i => m.pd (i.setWidth 32), m.frames⟩

/-- The frame that an access to a page reaches; `none` is a page fault. -/
def shows (m : PagedMemory σ) (p : BitVec 20) : Option (BitVec 20) :=
  if m.ready then (m.tables.walk p).map (·.frame) else (bootTranslate (pageAddr p)).map pageOf

/-- The number of a word in its page. -/
def wordOf (v : U32) : BitVec 10 := v.extractLsb' 2 10

/-- Read the word at an address. -/
def load (v : U32) (m : PagedMemory σ) : Option U32 :=
  (m.shows (pageOf v)).map fun f => m.frames f (wordOf v)

/-- Write the word at an address. -/
def store (v x : U32) (m : PagedMemory σ) : Option (PagedMemory σ) :=
  (m.shows (pageOf v)).map fun f =>
    { m with
      frames := update m.frames f (update (m.frames f) (wordOf v) x)
      events := m.events ++ [.storeTable f (wordOf v) x] }

/-- Write an entry of `g_kernel_pd`. -/
def storePde (i x : U32) (m : PagedMemory σ) : PagedMemory σ :=
  { m with pd := update m.pd i x, events := m.events ++ [.storeDir (i.setWidth 10) x] }

/-- `if (g_vmm_ready) vmm_invlpg(virt)`. -/
def invlpg (virt : U32) (m : PagedMemory σ) : PagedMemory σ :=
  if m.ready then { m with events := m.events ++ [.invlpg virt] } else m

/-- The pointer to a frame leads to the frame. -/
def Reaches (m : PagedMemory σ) (f : U32) : Prop := m.shows (pageOf (physToVirt f)) = some (pageOf f)

/-- The static data before `vmm_init`: an empty page directory. -/
def static (frames : BitVec 20 → BitVec 10 → BitVec 32) (pmm : σ) : PagedMemory σ where
  pd _ := 0#32
  frames := frames
  ready := false
  nextVaddr := 0#32
  directMapEnd := 0#32
  pmm := pmm
  events := []

end PagedMemory

/-! ### The functions of `vmm.c` -/

namespace InMemory
variable {σ : Type*} (ops : PmmOps σ)

/-- The loop of `memzero_page` over the first `n` words. -/
def memzeroPage (p : U32) : ℕ → PagedMemory σ → Option (PagedMemory σ)
  | 0, m => some m
  | n + 1, m => (memzeroPage p n m).bind (·.store (p + 4#32 * BitVec.ofNat 32 n) 0#32)

/-- `vmm_ensure_page_table(pd_idx)`: the page table of a directory entry, or `NULL`. -/
def vmmEnsurePageTable (pdIdx : U32) (m : PagedMemory σ) : Option (PagedMemory σ × U32) :=
  let pde := m.pd pdIdx
  if IsPresent pde then some (m, physToVirt (entryFrame pde))
  else
    let (ptPhys, pmm) := ops.allocPage m.pmm
    let m := { m with pmm := pmm }
    if ptPhys = 0#32 then some (m, 0#32)
    else
      let ptVirt := physToVirt ptPhys
      -- the directory entry is written only after the 1024 stores
      (memzeroPage ptVirt 1024 m).map fun m =>
        (m.storePde pdIdx (ptPhys ||| ptePresent ||| pteWritable), ptVirt)

/-- `vmm_map_page(virt, phys, flags)`: `0`, or `-1` when it is rejected. -/
def vmmMapPage (virt phys flags : U32) (m : PagedMemory σ) : Option (PagedMemory σ × Int) :=
  if ¬ virt.PageAligned ∨ ¬ phys.PageAligned then some (m, -1)
  else
    let pdi := pdIndex virt
    let pti := ptIndex virt
    (vmmEnsurePageTable ops pdi m).bind fun (m, pt) =>
      if pt = 0#32 then some (m, -1)
      else
        let m := if flags &&& pteUser ≠ 0#32 then m.storePde pdi (m.pd pdi ||| pteUser) else m
        (m.store (pt + 4#32 * pti) (entryFrame phys ||| (flags &&& 0xFFF#32))).map fun m =>
          (m.invlpg virt, 0)

/-- `vmm_unmap_page(virt)`. -/
def vmmUnmapPage (virt : U32) (m : PagedMemory σ) : Option (PagedMemory σ) :=
  if ¬ virt.PageAligned then some m
  else
    let pde := m.pd (pdIndex virt)
    if ¬ IsPresent pde then some m
    else
      let pt := physToVirt (entryFrame pde)
      (m.store (pt + 4#32 * ptIndex virt) 0#32).map (·.invlpg virt)

/-- The loop of `vmm_unmap_identity` over the first `n` directory entries. -/
def unmapIdentityLoop : ℕ → PagedMemory σ → PagedMemory σ
  | 0, m => m
  | n + 1, m =>
      let m := unmapIdentityLoop n m
      if IsPresent (m.pd (BitVec.ofNat 32 n)) then m.storePde (BitVec.ofNat 32 n) 0#32 else m

/-- `vmm_unmap_identity()`. -/
def vmmUnmapIdentity (m : PagedMemory σ) : PagedMemory σ :=
  if ¬ m.ready then m
  else
    let m := unmapIdentityLoop (pdIndex kernelVirtOffset).toNat m
    -- all entries at once, by a load of `CR3`
    { m with events := m.events ++ [.reload] }

/-- `vmm_get_physical(virt, &phys)`, where the inner `none` is `-1`. -/
def vmmGetPhysical (virt : U32) (m : PagedMemory σ) : Option (Option U32) :=
  if ¬ m.ready then some none
  else if ¬ virt.PageAligned then some none
  else
    let pde := m.pd (pdIndex virt)
    if ¬ IsPresent pde then some none
    else
      (m.load (physToVirt (entryFrame pde) + 4#32 * ptIndex virt)).map fun pte =>
        if ¬ IsPresent pte then none else some (entryFrame pte)

/-- `vmm_is_mapped(virt)`. -/
def vmmIsMapped (virt : U32) (m : PagedMemory σ) : Option Int :=
  if ¬ m.ready then some (-1)
  else if ¬ virt.PageAligned then some (-1)
  else
    let pde := m.pd (pdIndex virt)
    if ¬ IsPresent pde then some 0
    else
      (m.load (physToVirt (entryFrame pde) + 4#32 * ptIndex virt)).map fun pte =>
        if IsPresent pte then 1 else 0

/-- The mapping loop of `vmm_init` from `addr` on, with the rounds it may take. -/
def vmmInitLoop (mapEnd : U32) : ℕ → U32 → PagedMemory σ → Option (PagedMemory σ × Bool)
  | 0, _, _ => none
  | n + 1, addr, m =>
      if addr < mapEnd then
        (vmmMapPage ops addr addr (ptePresent ||| pteWritable) m).bind fun ret =>
          if ret.2 ≠ 0 then some (ret.1, false)
          else
            -- the second mapping of the page, in the kernel half
            let virtHigh := addr + kernelVirtOffset
            (vmmMapPage ops virtHigh addr (ptePresent ||| pteWritable) ret.1).bind fun ret =>
              if ret.2 ≠ 0 then some (ret.1, false)
              else vmmInitLoop mapEnd n (addr + vmmPageSize) ret.1
      else some (m, true)

/-- `vmm_init()`, where the kernel image ends at `kernelEnd`. The boot directory is in use until all
pages are mapped and `CR3` is loaded. -/
def vmmInit (kernelEnd : U32) (m : PagedMemory σ) : Option (PagedMemory σ) :=
  let m := { m with pd := Vmm.memzeroPage m.pd 1024 }
  let mapEnd := vmmMapEnd ops kernelEnd m.pmm
  (vmmInitLoop ops mapEnd (2 ^ 20) 0#32 m).map fun (m, mapped) =>
    if ¬ mapped then m
    else
      -- the load of `CR3`: the processor has seen nothing of the new tables before it
      let m := { m with ready := true, events := [] }
      let directMapTop := kernelVirtOffset + mapEnd
      let align4m := 0x400000#32
      { m with
        nextVaddr := (directMapTop + align4m - 1#32) &&& ~~~ (align4m - 1#32)
        directMapEnd := directMapTop }

end InMemory

end Microkernel.Vmm
