import Microkernel.Kernel.MemoryAccount
import Microkernel.Vmm.PagedRuns

/-! # The kernel over physical memory

The start of `kmain` and the calls `kmalloc`, `kfree`, `vmm_alloc_pages` and `vmm_free_pages` over the
physical memory, together with what the kernel and the callers write meanwhile.

* **`PagedKernel`** is the memory with the heap, the registry of areas and what the callers hold.
* **`InMemory.kernelBoot`** and **`InMemory.kernelCall`** are the start and the calls; a page fault is
  `none`.
* **`PagedCall.write`** is a write by ring 0 to any address. The statics and the records of the heap, the
  registry and the physical allocator are kept apart from the memory: no write destroys them.
* **`PagedKernel.Refines`** relates it to the kernel with separate tables, and
  **`PagedKernel.reachable_refines`** carries runs over, when the allocator only gives frames that the
  direct map has and no write goes through the pointer to a page table. -/

namespace Microkernel.Kernel

open Heap Vma Vmm
open Paging (pageOf)

/-! ### The machine -/

/-- The physical memory with the page directory, the heap, the registry, the results of
`vmm_alloc_pages`, those that were not given back, and the pages that the heap has mapped. -/
structure PagedKernel (σ : Type*) (ρ : Type) where
  /-- The virtual memory manager and the memory. -/
  memory : PagedMemory σ
  /-- The heap. -/
  heap : KernelHeap
  /-- The ranges that `vmm_alloc_pages` returned. -/
  pages : List (U32 × U32)
  /-- The registry. -/
  registry : VmaRegistry ρ
  /-- The live ranges. -/
  live : List (U32 × U32)
  /-- The pages of the heap. -/
  heapPages : List U32

/-- A call of the kernel, or a write of the word `x` at `v` by ring 0. -/
inductive PagedCall where
  | call (call : KernelCall)
  | write (v x : U32)

namespace InMemory
variable {σ : Type*} {ρ : Type} (P : LawfulPmm σ) (B : VmaOps ρ)

/-- `kmalloc_init()`. -/
def kmallocInit (m : PagedMemory σ) (heap : KernelHeap) : Option (PagedMemory σ × KernelHeap) :=
  let initialSize := kheapInitialPages * vmmPageSize
  (Vmm.InMemory.mapFreshPages P kheapStart kheapInitialPages.toNat 0#32 m).map fun ret =>
    if ret.2 then (ret.1, heap.init kheapStart initialSize) else (ret.1, heap)

/-- The pages that its loop maps, from page `i` on. -/
def mappedPages (start : U32) : ℕ → U32 → PagedMemory σ → Option (List U32)
  | 0, _, _ => some []
  | n + 1, i, m =>
      (Vmm.InMemory.mapFreshPage P (start + i * vmmPageSize) m).bind fun ret =>
        if ret.2.2 then (mappedPages start n (i + 1#32) ret.1).map ((start + i * vmmPageSize) :: ·)
        else some []

/-- What `slab_get_page` asks of the physical allocator and the page tables. -/
def slabRequestPage (size : U32) (heap : SlabState) (m : PagedMemory σ) :
    Option (PagedMemory σ × U32 × Bool) :=
  match findCache size with
  | none => some (m, 0#32, false)
  | some ci =>
      if size ≠ 0#32 ∧ (heap.caches ci).partialSlabs = 0#32 ∧ heap.slabBrk < kheapEnd ∧
          heap.slabBrk ≥ heap.slabCommitted then
        Vmm.InMemory.mapFreshPage P heap.slabBrk m
      else some (m, 0#32, false)

/-- `kmalloc(size)`. -/
def kmalloc (size : U32) (k : PagedKernel σ ρ) : Option (PagedKernel σ ρ × U32) :=
  match k.heap with
  | .firstFit c =>
      (heapCall c (.alloc size)).map fun r => ({ k with heap := .firstFit r.1 }, r.2)
  | .slab c =>
      (slabRequestPage P size c.heap k.memory).bind fun req =>
        if slabDividesByZero size req.2.1 req.2.2 c.heap then none
        else
          (slabCall c (.alloc size req.2.1 req.2.2)).map fun r =>
            ({ k with
              memory := req.1
              heap := .slab r.1
              heapPages := (if req.2.2 then [c.heap.slabBrk] else []) ++ k.heapPages }, r.2)

/-- `kfree(ptr)` of a pointer that a caller holds. -/
def kfree (ptr : U32) (k : PagedKernel σ ρ) : Option (PagedKernel σ ρ × U32) :=
  match k.heap with
  | .firstFit c => (heapCall c (.free ptr)).map fun r => ({ k with heap := .firstFit r.1 }, r.2)
  | .slab c => (slabCall c (.free ptr)).map fun r => ({ k with heap := .slab r.1 }, r.2)

/-- `vmm_alloc_pages(count)` with the registration of the range. -/
def vmmAllocPagesRegistered (name : NamePtr) (count : U32) (m : PagedMemory σ) (r : VmaRegistry ρ) :
    Option ((PagedMemory σ × VmaRegistry ρ) × U32) :=
  (Vmm.InMemory.vmmAllocPages P count m).bind fun ret =>
    if ret.2 ≠ 0#32 ∧ r.ready then
      (vmaAdd B ret.2 (ret.2 + count * vmmPageSize) (vmaRead ||| vmaWrite) name r).map fun a =>
        ((ret.1, a.1), ret.2)
    else some ((ret.1, r), ret.2)

/-- `vmm_free_pages(vaddr, count)` with the removal of the area. -/
def vmmFreePagesRegistered (vaddr count : U32) (m : PagedMemory σ) (r : VmaRegistry ρ) :
    Option (PagedMemory σ × VmaRegistry ρ) :=
  if vaddr = 0#32 ∨ count = 0#32 ∨ ¬ m.ready then some (m, r)
  else
    (if r.ready then (vmaRemove B vaddr r).map (·.1) else some r).bind fun r =>
      (Vmm.InMemory.vmmFreePages P vaddr count m).map (·, r)

/-- One call. `vmm_free_pages` gets the pointer and the count of an earlier result. -/
def kernelCall (name : NamePtr) (k : PagedKernel σ ρ) : KernelCall → Option (PagedKernel σ ρ × U32)
  | .kmalloc size => kmalloc P size k
  | .kfree ptr => kfree ptr k
  | .allocPages count =>
      (vmmAllocPagesRegistered P B name count k.memory k.registry).map fun r =>
        let put := fun l => if r.2 = 0#32 then l else (r.2, count) :: l
        ({ k with memory := r.1.1, registry := r.1.2, pages := put k.pages, live := put k.live }, r.2)
  | .freePages vaddr count =>
      if k.pages.contains (vaddr, count) then
        (vmmFreePagesRegistered P B vaddr count k.memory k.registry).map fun r =>
          ({ k with memory := r.1, registry := r.2, live := k.live.erase (vaddr, count) }, 0#32)
      else some (k, 0#32)

/-- One call or write. -/
def pagedCall (name : NamePtr) (k : PagedKernel σ ρ) : PagedCall → Option (PagedKernel σ ρ × U32)
  | .call call => kernelCall P B name k call
  | .write v x => (k.memory.store v x).map fun m => ({ k with memory := m }, 0#32)

/-- The memory set-up of `kmain` from `vmm_init` on: the heap, then the registration of the direct map and
of the first pages of the heap. -/
def kernelBoot (names : AreaNames) (kernelEnd : U32) (frames : BitVec 20 → BitVec 10 → BitVec 32)
    (pmm : σ) (backend : HeapBackend) (state : ρ) : Option (PagedKernel σ ρ) :=
  (Vmm.InMemory.vmmInit P.toPmmOps kernelEnd (.static frames pmm)).bind fun m =>
    let m := Vmm.InMemory.vmmUnmapIdentity m
    (mappedPages P kheapStart kheapInitialPages.toNat 0#32 m).bind fun heapPages =>
    (kmallocInit P m backend.static).bind fun ret =>
    let registry := vmaInit B ⟨false, state⟩
    (vmaAdd B kernelVirtOffset ret.1.directMapEnd (vmaRead ||| vmaWrite ||| vmaExec) names.directMap
      registry).bind fun a =>
    (vmaAdd B kheapStart (kheapStart + kheapInitialPages * vmmPageSize) (vmaRead ||| vmaWrite)
      names.kheap a.1).map fun a => ⟨ret.1, ret.2, [], a.1, [], heapPages⟩

/-- The kernel from a state on, as a machine. -/
def kernelMachine (name : NamePtr) (k : PagedKernel σ ρ) :
    Machine (PagedKernel σ ρ) PagedCall U32 := ⟨k, pagedCall P B name⟩

end InMemory

/-! ### The kernel with separate tables -/

/-- Results that are related: both calls return, or neither. -/
theorem rel_some_left {α β : Type*} {r : α → β → Prop} {a : α} {o : Option β}
    (h : Option.Rel r (some a) o) : ∃ b, o = some b ∧ r a b := by
  cases h with
  | some hr => exact ⟨_, rfl, hr⟩

/-- What is related to a result is a result. -/
theorem rel_some_right {α β : Type*} {r : α → β → Prop} {o : Option α} {b : β}
    (h : Option.Rel r o (some b)) : ∃ a, o = some a ∧ r a b := by
  cases h with
  | some hr => exact ⟨_, rfl, hr⟩

/-- **The same kernel**: the memory implements the tables, and the rest is the same. -/
structure PagedKernel.Implements {σ : Type*} {ρ : Type} (k : PagedKernel σ ρ) (p : RegisteredState σ ρ) :
    Prop where
  memory : k.memory.Implements False p.kernel.vmm
  heap : k.heap = p.kernel.heap
  pages : k.pages = p.kernel.pages
  registry : k.registry = p.registry
  live : k.live = p.live
  heapPages : k.heapPages = p.heapPages

/-- The watermark and the results of `vmm_alloc_pages` lie from `base` on, or there is no watermark. -/
def KernelState.From {σ : Type*} (s : KernelState σ) (base : ℕ) : Prop :=
  (s.vmm.nextVaddr = 0#32 ∧ s.pages = []) ∨ base ≤ s.vmm.nextVaddr.toNat ∧
    ∀ r ∈ s.pages, base ≤ r.1.toNat ∧ r.1.toNat + r.2.toNat * 4096 ≤ 2 ^ 32

/-- **The kernel refines one with separate tables** that keeps its invariants. -/
structure PagedKernel.Refines {σ : Type*} {ρ : Type} (k : PagedKernel σ ρ) (p : RegisteredState σ ρ)
    (P : LawfulPmm σ) (D : U32 → Prop) (base : ℕ) : Prop where
  implements : k.Implements p
  grounded : p.kernel.vmm.Grounded P D base
  heap : p.kernel.heap.Sound
  above : p.kernel.From base
  spares : ∀ v, HeapMaps v → ¬ IsPointer D v

section Calls
variable {σ : Type*} {ρ : Type} {P : LawfulPmm σ} {B : VmaOps ρ} {D : U32 → Prop} {base : ℕ}
  {k k' : PagedKernel σ ρ} {p p' : RegisteredState σ ρ} {m : PagedMemory σ} {s : VmmState σ}
  {name : NamePtr} {answer : U32}

/-- What `slab_get_page` asks for. -/
theorem implements_slabRequestPage {c : SlabClient} (hs : s.Grounded P D base) (hm : m.Implements False s)
    (hspares : ∀ v, HeapMaps v → ¬ IsPointer D v) (hheap : (KernelHeap.slab c).Sound) (size : U32) :
    ∃ m', InMemory.slabRequestPage P size c.heap m = some (m', (slabRequestPage P size c.heap s).2) ∧
      m'.Implements False (slabRequestPage P size c.heap s).1 ∧
      (slabRequestPage P size c.heap s).1.Grounded P D base := by
  unfold InMemory.slabRequestPage slabRequestPage
  cases findCache size with
  -- no class is large enough, and no page is asked for
  | none => exact ⟨m, rfl, hm, hs⟩
  | some ci =>
    dsimp only
    split
    · -- the class has no slab with a free object
      rename_i hneeds
      obtain ⟨m', hres, hm'⟩ := hm.mapFreshPage hs.anchored c.heap.slabBrk
        fun _ => gives_of_free (s := { s with pmm := (P.allocPage s.pmm).2 }) hs.free_request
      exact ⟨m', hres, hm', hs.mapFreshPage (hspares _ (hheap.heapMaps hneeds.2.2.1))⟩
    · exact ⟨m, rfl, hm, hs⟩

/-- The results of a call: the same answer, and states that go on to implement each other. -/
def CallImplements (P : LawfulPmm σ) (D : U32 → Prop) (base : ℕ)
    (r : PagedKernel σ ρ × U32) (r' : RegisteredState σ ρ × U32) : Prop :=
  r.1.Implements r'.1 ∧ r'.1.kernel.vmm.Grounded P D base ∧ r.2 = r'.2

/-- **`kmalloc`** does the same in the memory. -/
theorem PagedKernel.Refines.kmalloc (h : k.Refines p P D base) (size : U32) :
    Option.Rel (CallImplements P D base) (InMemory.kernelCall P B name k (.kmalloc size))
      (registeredCall P B name p (.kmalloc size)) := by
  obtain ⟨hk, hs, hheap, -, hspares⟩ := h
  unfold InMemory.kernelCall registeredCall InMemory.kmalloc Kernel.kmalloc heapRequest
  rw [hk.heap]
  cases hcase : p.kernel.heap with
  | firstFit c =>
    dsimp only
    cases heapCall c (.alloc size) with
    | none => exact .none
    | some r => exact .some ⟨⟨hk.memory, rfl, hk.pages, hk.registry, hk.live, hk.heapPages⟩, hs, rfl⟩
  | slab c =>
    rw [hcase] at hheap
    obtain ⟨m', hreq, hm', hs'⟩ := implements_slabRequestPage hs hk.memory hspares hheap size
    dsimp only
    rw [hreq, Option.bind_some]
    dsimp only
    split
    · exact .none
    cases slabCall c (.alloc size (slabRequestPage P size c.heap p.kernel.vmm).2.1
        (slabRequestPage P size c.heap p.kernel.vmm).2.2) with
    | none => exact .none
    | some r =>
      refine .some ⟨⟨hm', rfl, hk.pages, hk.registry, hk.live, ?_⟩, hs', rfl⟩
      dsimp only
      rw [hk.heapPages]
      cases (slabRequestPage P size c.heap p.kernel.vmm).2.2 <;> rfl

/-- **`kfree`** does not touch the tables. -/
theorem PagedKernel.Refines.kfree (h : k.Refines p P D base) (ptr : U32) :
    Option.Rel (CallImplements P D base) (InMemory.kernelCall P B name k (.kfree ptr))
      (registeredCall P B name p (.kfree ptr)) := by
  obtain ⟨hk, hs, -, -, -⟩ := h
  unfold InMemory.kernelCall registeredCall InMemory.kfree Kernel.kfree
  rw [hk.heap]
  cases p.kernel.heap with
  | firstFit c =>
    dsimp only
    cases heapCall c (.free ptr) with
    | none => exact .none
    | some r => exact .some ⟨⟨hk.memory, rfl, hk.pages, hk.registry, hk.live, hk.heapPages⟩, hs, rfl⟩
  | slab c =>
    dsimp only
    cases slabCall c (.free ptr) with
    | none => exact .none
    | some r => exact .some ⟨⟨hk.memory, rfl, hk.pages, hk.registry, hk.live, hk.heapPages⟩, hs, rfl⟩

/-- A request has room and lies behind the direct map. -/
theorem KernelState.From.range {s : KernelState σ} (h : s.From base) {count : U32}
    (hroom : InRoom s (.allocPages count)) :
    s.vmm.Rejects count ∨ base ≤ s.vmm.nextVaddr.toNat ∧
      s.vmm.nextVaddr.toNat + count.toNat * 4096 ≤ 2 ^ 32 := by
  rcases h with ⟨hzero, -⟩ | ⟨hbase, -⟩
  · exact .inl (.inr (.inr (.inl hzero)))
  · exact hroom.imp_right fun hroom => ⟨hbase, hroom.outside.1.le⟩

/-- **`vmm_alloc_pages`** with room does the same in the memory. -/
theorem PagedKernel.Refines.allocPages (h : k.Refines p P D base) {count : U32}
    (hroom : InRoom p.kernel (.allocPages count)) :
    Option.Rel (CallImplements P D base) (InMemory.kernelCall P B name k (.allocPages count))
      (registeredCall P B name p (.allocPages count)) := by
  obtain ⟨hk, hs, -, habove, -⟩ := h
  obtain ⟨m', hres, hm', hs'⟩ := hs.allocPages hk.memory (habove.range hroom)
  unfold InMemory.kernelCall registeredCall InMemory.vmmAllocPagesRegistered
    Kernel.vmmAllocPagesRegistered
  rw [hk.registry, hk.pages, hk.live]
  dsimp only
  rw [hres, Option.bind_some]
  dsimp only
  split
  · -- step 5, the registration
    cases vmaAdd B (Vmm.vmmAllocPages P count p.kernel.vmm).2 ((Vmm.vmmAllocPages P count p.kernel.vmm).2 +
        count * vmmPageSize) (vmaRead ||| vmaWrite) name p.registry with
    | none => exact .none
    | some a => exact .some ⟨⟨hm', hk.heap, rfl, rfl, rfl, hk.heapPages⟩, hs', rfl⟩
  · exact .some ⟨⟨hm', hk.heap, rfl, rfl, rfl, hk.heapPages⟩, hs', rfl⟩

/-- **`vmm_free_pages`** of a result does the same in the memory. -/
theorem PagedKernel.Refines.freePages (h : k.Refines p P D base) (vaddr count : U32) :
    Option.Rel (CallImplements P D base) (InMemory.kernelCall P B name k (.freePages vaddr count))
      (registeredCall P B name p (.freePages vaddr count)) := by
  obtain ⟨hk, hs, -, habove, -⟩ := h
  unfold InMemory.kernelCall registeredCall
  dsimp only
  by_cases hheld : p.kernel.pages.contains (vaddr, count) = true
  swap
  · -- no call is made for what is not held
    rw [hk.pages, if_neg hheld, if_neg hheld]
    exact .some ⟨hk, hs, rfl⟩
  rw [if_pos (hk.pages.symm ▸ hheld), if_pos hheld]
  have hmem := List.contains_iff_mem.mp hheld
  obtain ⟨hbase, hend⟩ : base ≤ vaddr.toNat ∧ vaddr.toNat + count.toNat * 4096 ≤ 2 ^ 32 := by
    rcases habove with ⟨-, hnil⟩ | ⟨-, hranges⟩
    · -- the watermark has wrapped around, and there are no ranges
      rw [hnil] at hmem
      exact absurd hmem List.not_mem_nil
    · exact hranges _ hmem
  obtain ⟨m', hres, hm', hs'⟩ := hs.freePages hk.memory hbase hend
  unfold InMemory.vmmFreePagesRegistered Kernel.vmmFreePagesRegistered
  rw [hk.registry, hk.memory.ready]
  by_cases hguard : vaddr = 0#32 ∨ count = 0#32 ∨ ¬ p.kernel.vmm.ready
  · rw [if_pos hguard, if_pos hguard]
    exact .some ⟨⟨hk.memory, hk.heap, hk.pages, rfl, congrArg (List.erase · _) hk.live, hk.heapPages⟩,
      hs, rfl⟩
  rw [if_neg hguard, if_neg hguard, hres]
  have hlive := congrArg (List.erase · (vaddr, count)) hk.live
  -- the area goes before the pages
  by_cases hready : p.registry.ready = true
  · rw [if_pos hready, if_pos hready]
    cases vmaRemove B vaddr p.registry with
    | none => exact .none
    | some a => exact .some ⟨⟨hm', hk.heap, hk.pages, rfl, hlive, hk.heapPages⟩, hs', rfl⟩
  · rw [if_neg hready, if_neg hready]
    exact .some ⟨⟨hm', hk.heap, hk.pages, rfl, hlive, hk.heapPages⟩, hs', rfl⟩

/-- **Every call** with room does the same in the memory: it returns when it returns over separate tables,
and then with the same answer. -/
theorem PagedKernel.Refines.call (h : k.Refines p P D base) {call : KernelCall}
    (hroom : InRoom p.kernel call) :
    Option.Rel (CallImplements P D base) (InMemory.kernelCall P B name k call)
      (registeredCall P B name p call) := by
  cases call with
  | kmalloc size => exact h.kmalloc size
  | kfree ptr => exact h.kfree ptr
  | allocPages count => exact h.allocPages hroom
  | freePages vaddr count => exact h.freePages vaddr count

/-- A call does to the kernel what it does without the registry. -/
theorem registeredCall_kernel {call : KernelCall} (hres : registeredCall P B name p call = some (p', answer)) :
    kernelCall P p.kernel call = some (p'.kernel, answer) := by
  cases call with
  | kmalloc size =>
    obtain ⟨r, hcall, hr⟩ := Option.map_eq_some_iff.mp hres
    obtain ⟨rfl, rfl⟩ := Prod.mk.inj hr
    exact hcall
  | kfree ptr =>
    obtain ⟨r, hcall, hr⟩ := Option.map_eq_some_iff.mp hres
    obtain ⟨rfl, rfl⟩ := Prod.mk.inj hr
    exact hcall
  | allocPages count =>
    obtain ⟨⟨⟨s', registry'⟩, q⟩, hcall, hr⟩ := Option.map_eq_some_iff.mp hres
    obtain ⟨rfl, rfl⟩ := Prod.mk.inj hr
    simp only [kernelCall, vmmAllocPagesRegistered_eq hcall]
  | freePages vaddr count =>
    unfold registeredCall at hres
    unfold kernelCall
    dsimp only at hres ⊢
    split at hres
    · rename_i hheld
      obtain ⟨⟨s', registry'⟩, hcall, hr⟩ := Option.map_eq_some_iff.mp hres
      obtain ⟨rfl, rfl⟩ := Prod.mk.inj hr
      rw [if_pos hheld, vmmFreePagesRegistered_eq hcall]
    · rename_i hheld
      obtain ⟨rfl, rfl⟩ := Prod.mk.inj (Option.some.inj hres)
      rw [if_neg hheld]

/-- **A call with room** leaves the watermark and the results behind the direct map, and the heap sound. -/
theorem KernelState.From.call {s s' : KernelState σ} (h : s.From base) (hheap : s.heap.Sound)
    {call : KernelCall} (hroom : InRoom s call) (hres : kernelCall P s call = some (s', answer)) :
    s'.From base ∧ s'.heap.Sound := by
  unfold KernelState.From at h ⊢
  cases call with
  | kmalloc size =>
    obtain ⟨hheap', hpages, -⟩ := kmalloc_cases hheap hres
    obtain ⟨-, hnext⟩ := kmalloc_watermark hres
    rw [hpages, hnext]
    exact ⟨h, hheap'⟩
  | kfree ptr =>
    obtain ⟨hheap', hpages, hvmm⟩ := kfree_cases hheap hres
    rw [hpages, hvmm]
    exact ⟨h, hheap'⟩
  | allocPages count =>
    obtain ⟨vmm, q, halloc⟩ : ∃ vmm q, Vmm.vmmAllocPages P count s.vmm = (vmm, q) := ⟨_, _, rfl⟩
    simp only [kernelCall, halloc] at hres
    obtain ⟨rfl, -⟩ := Prod.mk.inj (Option.some.inj hres)
    refine ⟨?_, hheap⟩
    by_cases hrej : s.vmm.Rejects count
    · -- a rejected call leaves the watermark
      rw [vmmAllocPages_rejects hrej] at halloc
      obtain ⟨rfl, rfl⟩ := Prod.mk.inj halloc
      exact h
    obtain ⟨-, hle, hq⟩ := vmmAllocPages_watermark halloc
    obtain ⟨hbase, hranges⟩ := h.resolve_left fun hnone => hrej (.inr (.inr (.inl hnone.1)))
    obtain ⟨hend, -⟩ := (hroom.resolve_left hrej).outside
    refine .inr ⟨hbase.trans hle, fun r hr => ?_⟩
    by_cases hnull : q = 0#32
    · exact hranges r (by simpa [hnull] using hr)
    · simp only [if_neg hnull] at hr
      rcases List.mem_cons.mp hr with rfl | hr
      · -- the new range begins at the old watermark
        rw [(hq hnull).1]
        exact ⟨hbase, hend.le⟩
      · exact hranges r hr
  | freePages vaddr count =>
    have hnext := vmmFreePages_nextVaddr (P := P) vaddr count s.vmm
    unfold kernelCall at hres
    dsimp only at hres
    split at hres
    · obtain ⟨rfl, -⟩ := Prod.mk.inj (Option.some.inj hres)
      exact ⟨hnext.symm ▸ h, hheap⟩
    · obtain ⟨rfl, -⟩ := Prod.mk.inj (Option.some.inj hres)
      exact ⟨h, hheap⟩

end Calls

/-! ### Runs -/

/-- What a call or a write must meet: a request for pages is turned away by a check or has room, and a write
does not go through the pointer to a page table. -/
def PagedKernel.InRoom {σ : Type*} {ρ : Type} (k : PagedKernel σ ρ) : PagedCall → Prop
  | .call (.allocPages count) => k.memory.Rejects count ∨ RoomFor k.memory.nextVaddr count
  | .call _ => True
  | .write v _ => ∀ f, k.memory.IsTable f → pageOf v ≠ pageOf (physToVirt f)

section Runs
variable {σ : Type*} {ρ : Type} {P : LawfulPmm σ} {B : VmaOps ρ} {D : U32 → Prop} {base : ℕ}
  {k k' k₀ : PagedKernel σ ρ} {p p₀ : RegisteredState σ ρ} {name : NamePtr} {answer : U32}

/-- A call has room in one model when it has in the other. -/
theorem PagedKernel.Implements.inRoom_iff (h : k.Implements p) {call : KernelCall} :
    k.InRoom (.call call) ↔ Kernel.InRoom p.kernel call := by
  cases call with
  | allocPages count =>
    unfold PagedKernel.InRoom Kernel.InRoom
    dsimp only
    rw [h.memory.rejects_iff, h.memory.nextVaddr]
  | _ => exact Iff.rfl

/-- **One call with room** is one over separate tables. -/
theorem PagedKernel.Refines.step (h : k.Refines p P D base) {call : KernelCall}
    (hroom : k.InRoom (.call call)) (hres : InMemory.kernelCall P B name k call = some (k', answer)) :
    ∃ p', registeredCall P B name p call = some (p', answer) ∧ k'.Refines p' P D base := by
  have hroom' := h.implements.inRoom_iff.mp hroom
  have hrel := @PagedKernel.Refines.call _ _ _ B _ _ _ _ name h _ hroom'
  rw [hres] at hrel
  obtain ⟨⟨p', answer'⟩, hcall, himpl, hgrounded, rfl⟩ := rel_some_left hrel
  obtain ⟨habove, hheap⟩ := h.above.call h.heap hroom' (registeredCall_kernel hcall)
  exact ⟨p', hcall, himpl, hgrounded, hheap, habove, h.spares⟩

/-- And one over separate tables is one in the memory. -/
theorem PagedKernel.Refines.returns (h : k.Refines p P D base) {p' : RegisteredState σ ρ} {call : KernelCall}
    (hroom : Kernel.InRoom p.kernel call) (hres : registeredCall P B name p call = some (p', answer)) :
    ∃ k', InMemory.kernelCall P B name k call = some (k', answer) ∧ k'.Refines p' P D base := by
  have hrel := @PagedKernel.Refines.call _ _ _ B _ _ _ _ name h _ hroom
  rw [hres] at hrel
  obtain ⟨⟨k', answer'⟩, hcall, himpl, hgrounded, rfl⟩ := rel_some_right hrel
  obtain ⟨habove, hheap⟩ := h.above.call h.heap hroom (registeredCall_kernel hres)
  exact ⟨k', hcall, himpl, hgrounded, hheap, habove, h.spares⟩

/-- **A write** leaves the tables alone. -/
theorem PagedKernel.Refines.write (h : k.Refines p P D base) {v x : U32} (hroom : k.InRoom (.write v x))
    {m : PagedMemory σ} (hm : k.memory.store v x = some m) :
    PagedKernel.Refines { k with memory := m } p P D base := by
  have hk := h.implements
  exact ⟨⟨h.grounded.implements_store hk.memory hroom hm, hk.heap, hk.pages, hk.registry, hk.live,
    hk.heapPages⟩, h.grounded, h.heap, h.above, h.spares⟩

/-- A write to a page outside the direct map goes through no pointer to a page table. -/
theorem PagedKernel.Refines.writes (h : k.Refines p P D base) {v : U32}
    (hv : ¬ IsPointer D (pageAddr (pageOf v))) (x : U32) : k.InRoom (.write v x) := by
  intro f hf heq
  rw [h.implements.memory.isTable_iff] at hf
  obtain ⟨i, hi⟩ := hf
  have halign : f.PageAligned := by
    have hi' := hi
    rw [entryTarget_eq] at hi'
    obtain ⟨e, -, rfl⟩ := Option.map_eq_some_iff.mp hi'
    exact entryFrame_aligned e
  refine hv ⟨f, h.grounded.anchored.tables f ⟨i, hi⟩, ?_⟩
  rw [heq, pageAddr_pageOf (physToVirt_aligned halign)]

/-- **Every run** of such calls and writes is one of the calls over separate tables. -/
theorem PagedKernel.reachable_refines {C : PagedKernel σ ρ → PagedCall → Prop}
    {C' : RegisteredState σ ρ → KernelCall → Prop} (hroom : ∀ k call, C k call → k.InRoom call)
    (hC : ∀ k p call, k.Implements p → C k (.call call) → C' p call) (h₀ : k₀.Refines p₀ P D base)
    (hk : (InMemory.kernelMachine P B name k₀).ReachableVia C k) :
    ∃ p, (registeredMachine P B name p₀).ReachableVia C' p ∧ k.Refines p P D base := by
  induction hk with
  | init => exact ⟨p₀, .init, h₀⟩
  | @step s t call answer _ hcall hres ih =>
    obtain ⟨p, hp, h⟩ := ih
    cases call with
    | call call =>
      obtain ⟨p', hres', h'⟩ := h.step (hroom _ _ hcall) hres
      exact ⟨p', .step hp (hC _ _ _ h.implements hcall) hres', h'⟩
    | write v x =>
      obtain ⟨m, hm, hr⟩ := Option.map_eq_some_iff.mp hres
      obtain ⟨rfl, -⟩ := Prod.mk.inj hr
      exact ⟨p, hp, h.write (hroom _ _ hcall) hm⟩

end Runs

/-! ### The start -/

/-- A frame that the direct map has, also where the heap window cuts into it. -/
def DirectFrame (mapEnd f : U32) : Prop := f < mapEnd ∧ ¬ InKheap (physToVirt f)

section Boot
variable {σ : Type*} {ρ : Type} {P : LawfulPmm σ} {B : VmaOps ρ} {D : U32 → Prop} {base : ℕ}
  {names : AreaNames} {kernelEnd : U32} {frames : BitVec 20 → BitVec 10 → BitVec 32} {pmm : σ}
  {backend : HeapBackend} {state : ρ} {k₀ : PagedKernel σ ρ} {m : PagedMemory σ} {s t : VmmState σ}

/-- The pages that the loop of `kmalloc_init` maps. -/
theorem implements_mappedPages {start : U32} (n : ℕ) {i : U32} (hs : s.Grounded P D base)
    (hm : m.Implements False s)
    (hpages : ∀ k < n, ¬ IsPointer D (start + (i + BitVec.ofNat 32 k) * vmmPageSize)) :
    InMemory.mappedPages P start n i m = some (mappedPages P start n i s) := by
  induction n generalizing i s m with
  | zero => rfl
  | succ n ih =>
    have hfirst := hpages 0 (Nat.succ_pos n)
    rw [page_zero] at hfirst
    obtain ⟨m₁, hres, hm₁⟩ := hm.mapFreshPage hs.anchored (start + i * vmmPageSize)
      fun _ => gives_of_free (s := { s with pmm := (P.allocPage s.pmm).2 }) hs.free_request
    unfold InMemory.mappedPages mappedPages
    rw [hres, Option.bind_some]
    dsimp only
    split
    · rw [ih (hs.mapFreshPage hfirst) hm₁ fun k hk => by
        rw [page_succ]
        exact hpages (k + 1) (Nat.succ_lt_succ hk)]
      rfl
    · rfl

/-- The pages where the heap maps are no pointers to these frames. -/
theorem DirectFrame.spares {mapEnd : U32} (hmax : mapEnd.toNat ≤ 2 ^ 30) {v : U32} (hv : HeapMaps v) :
    ¬ IsPointer (DirectFrame mapEnd) v := by
  rintro ⟨f, ⟨hlt, hout⟩, rfl⟩
  have hnat := physToVirt_toNat hmax hlt
  rcases hv with hin | hlow
  · -- a pointer into the window is excluded
    exact hout hin
  · -- a pointer lies in the kernel half
    omega

/-- The pages of the heap window that `kmalloc_init` maps. -/
theorem kheapPages_inKheap : ∀ k < kheapInitialPages.toNat,
    InKheap (kheapStart + (0#32 + BitVec.ofNat 32 k) * vmmPageSize) := by
  decide

/-- **`kmalloc_init`** does the same in the memory. -/
theorem implements_kmallocInit (hs : s.Grounded P D base) (hm : m.Implements False s)
    (hspares : ∀ v, HeapMaps v → ¬ IsPointer D v) (heap : KernelHeap) :
    ∃ m', InMemory.kmallocInit P m heap = some (m', (kmallocInit P s heap).2) ∧
      m'.Implements False (kmallocInit P s heap).1 ∧ (kmallocInit P s heap).1.Grounded P D base := by
  obtain ⟨m', hres, hm', hs'⟩ := hs.mapFreshPages kheapInitialPages.toNat
    hm fun k hk => hspares _ (.inl (kheapPages_inKheap k hk))
  unfold InMemory.kmallocInit kmallocInit
  rw [hres, Option.map_some]
  dsimp only
  split
  · exact ⟨m', rfl, hm', hs'⟩
  · exact ⟨m', rfl, hm', hs'⟩

/-- Behind `vmm_init` the start does not move the watermark, and it holds no ranges. -/
theorem kernelBoot_static (hboot : InMemory.kernelBoot P B names kernelEnd frames pmm backend state = some k₀)
    (hinit : Vmm.InMemory.vmmInit P.toPmmOps kernelEnd (.static frames pmm) = some m) :
    m.SameStatic k₀.memory ∧ k₀.pages = [] ∧ k₀.live = [] := by
  unfold InMemory.kernelBoot at hboot
  rw [hinit, Option.bind_some] at hboot
  obtain ⟨pages, -, hboot⟩ := Option.bind_eq_some_iff.mp hboot
  obtain ⟨ret, hret, hboot⟩ := Option.bind_eq_some_iff.mp hboot
  obtain ⟨a, -, hboot⟩ := Option.bind_eq_some_iff.mp hboot
  obtain ⟨b, -, rfl⟩ := Option.map_eq_some_iff.mp hboot
  obtain ⟨r, hr, rfl⟩ := Option.map_eq_some_iff.mp hret
  have hstatic := (Vmm.InMemory.vmmUnmapIdentity_static m).trans (Vmm.InMemory.mapFreshPages_static _ hr)
  refine ⟨?_, rfl, rfl⟩
  dsimp only
  split <;> exact hstatic

/-- The same over separate tables. -/
theorem kernelBootRegistered_ready {table : U32 → U32 → U32} {p₀ : RegisteredState σ ρ}
    (hboot : kernelBootRegistered P B names kernelEnd table pmm backend state = some p₀)
    (hinit : vmmInit P.toPmmOps kernelEnd (vmmStatic table pmm) = some t) :
    p₀.kernel.vmm.ready = t.ready := by
  unfold kernelBootRegistered at hboot
  rw [hinit, Option.bind_some] at hboot
  obtain ⟨a, -, hboot⟩ := Option.bind_eq_some_iff.mp hboot
  obtain ⟨b, -, rfl⟩ := Option.map_eq_some_iff.mp hboot
  obtain ⟨t', hinit', hwf, -⟩ := vmmInit_boot P.lawful kernelEnd table pmm
  obtain rfl := Option.some.inj (hinit.symm.trans hinit')
  obtain ⟨hwf', hready, -⟩ := vmmUnmapIdentity_spec hwf
  exact (kmallocInit_static hwf' backend.static_sound).1.trans hready

/-- The start when `vmm_init` has enough frames: it does the same in the memory. -/
theorem kernelBoot_rel (hlow : ∀ f, ¬ P.InUse pmm f → DirectFrame (vmmMapEnd P.toPmmOps kernelEnd pmm) f)
    (hinit : vmmInit P.toPmmOps kernelEnd (vmmStatic (frameTable frames) pmm) = some t)
    (hready : t.ready) :
    Option.Rel (fun k p => k.Refines p P (DirectFrame (vmmMapEnd P.toPmmOps kernelEnd pmm))
        (0xC0000000 + (vmmMapEnd P.toPmmOps kernelEnd pmm).toNat))
      (InMemory.kernelBoot P B names kernelEnd frames pmm backend state)
      (kernelBootRegistered P B names kernelEnd (frameTable frames) pmm backend state) := by
  obtain ⟨-, hmax⟩ := vmmMapEnd_spec P.toPmmOps kernelEnd pmm
  obtain ⟨m, hinit', hm⟩ := (@vmmInit_inMemory _ _ _ False) (fun f hf => (hlow f hf).1) hinit
  have hgrounded := vmmInit_grounded hlow (fun f hf => hf.1) le_rfl hinit hready
  obtain ⟨t', hboot, hwf, -, hmark, -⟩ := vmmInit_boot P.lawful kernelEnd (frameTable frames) pmm
  obtain rfl := Option.some.inj (hboot.symm.trans hinit)
  obtain ⟨hwf', -, -⟩ := vmmUnmapIdentity_spec hwf
  have hspares := fun v => DirectFrame.spares (v := v) hmax
  have hunmap := hm.unmapIdentity.1
  obtain ⟨m', hres, hm', hs'⟩ := implements_kmallocInit hgrounded hunmap hspares backend.static
  have hpages := @implements_mappedPages _ _ _ _ _ _ kheapStart kheapInitialPages.toNat 0#32 hgrounded
    hunmap fun k hk => hspares _ (.inl (kheapPages_inKheap k hk))
  have hheap := (kmallocInit_invariant (P := P) (I := fun _ => True) (t := vmmUnmapIdentity t') trivial
    (fun _ _ _ _ _ => trivial) backend.static backend.static_sound).2
  have hnext : (kmallocInit P (vmmUnmapIdentity t') backend.static).1.nextVaddr = t'.nextVaddr :=
    (kmallocInit_static hwf' backend.static_sound).2.1.trans (vmmUnmapIdentity_rest t').2.2.1
  -- the watermark is behind the direct map, or has wrapped around
  have habove : KernelState.From ⟨(kmallocInit P (vmmUnmapIdentity t') backend.static).1,
      (kmallocInit P (vmmUnmapIdentity t') backend.static).2, []⟩
      (0xC0000000 + (vmmMapEnd P.toPmmOps kernelEnd pmm).toNat) := by
    unfold KernelState.From
    dsimp only
    rw [hnext]
    rcases watermark_cases hmax (hmark hready).2 with hzero | ⟨-, hge⟩
    · exact .inl ⟨hzero, rfl⟩
    · exact .inr ⟨hge, fun r hr => absurd hr List.not_mem_nil⟩
  unfold InMemory.kernelBoot kernelBootRegistered
  rw [hinit', hinit, Option.bind_some, Option.bind_some]
  dsimp only
  rw [hpages, Option.bind_some, hres, Option.bind_some]
  dsimp only
  rw [hm'.directMapEnd]
  -- both registrations, with the same arguments
  cases vmaAdd B kernelVirtOffset (kmallocInit P (vmmUnmapIdentity t') backend.static).1.directMapEnd
      (vmaRead ||| vmaWrite ||| vmaExec) names.directMap (vmaInit B ⟨false, state⟩) with
  | none => exact .none
  | some a =>
    rw [Option.bind_some, Option.bind_some]
    cases vmaAdd B kheapStart (kheapStart + kheapInitialPages * vmmPageSize) (vmaRead ||| vmaWrite)
        names.kheap a.1 with
    | none => exact .none
    | some b => exact .some ⟨⟨hm', rfl, rfl, rfl, rfl, rfl⟩, hs', hheap, habove, hspares⟩

/-- **The start** in the memory is the one over separate tables. -/
theorem kernelBoot_refines
    (hlow : ∀ f, ¬ P.InUse pmm f → DirectFrame (vmmMapEnd P.toPmmOps kernelEnd pmm) f)
    (hboot : InMemory.kernelBoot P B names kernelEnd frames pmm backend state = some k₀)
    (hready : k₀.memory.ready) :
    ∃ p₀, kernelBootRegistered P B names kernelEnd (frameTable frames) pmm backend state = some p₀ ∧
      k₀.Refines p₀ P (DirectFrame (vmmMapEnd P.toPmmOps kernelEnd pmm))
        (0xC0000000 + (vmmMapEnd P.toPmmOps kernelEnd pmm).toNat) := by
  obtain ⟨t, hinit, -⟩ := vmmInit_boot P.lawful kernelEnd (frameTable frames) pmm
  obtain ⟨m, hinit', hm⟩ := (@vmmInit_inMemory _ _ _ False) (fun f hf => (hlow f hf).1) hinit
  have ht : t.ready := by
    rw [← hm.ready, ← (kernelBoot_static hboot hinit').1.1]
    exact hready
  have hrel := @kernelBoot_rel _ _ _ B names _ _ _ backend state _ hlow hinit ht
  rw [hboot] at hrel
  exact rel_some_left hrel

/-- And it returns when that one does. -/
theorem kernelBoot_returns {p₀ : RegisteredState σ ρ}
    (hlow : ∀ f, ¬ P.InUse pmm f → DirectFrame (vmmMapEnd P.toPmmOps kernelEnd pmm) f)
    (hboot : kernelBootRegistered P B names kernelEnd (frameTable frames) pmm backend state = some p₀)
    (hready : p₀.kernel.vmm.ready) :
    ∃ k₀, InMemory.kernelBoot P B names kernelEnd frames pmm backend state = some k₀ ∧
      k₀.Refines p₀ P (DirectFrame (vmmMapEnd P.toPmmOps kernelEnd pmm))
        (0xC0000000 + (vmmMapEnd P.toPmmOps kernelEnd pmm).toNat) := by
  obtain ⟨t, hinit, hwf, -⟩ := vmmInit_boot P.lawful kernelEnd (frameTable frames) pmm
  have ht : t.ready := by
    rw [← kernelBootRegistered_ready hboot hinit]
    exact hready
  have hrel := @kernelBoot_rel _ _ _ B names _ _ _ backend state _ hlow hinit ht
  rw [hboot] at hrel
  obtain ⟨k₀, hcase, h⟩ := rel_some_right hrel
  exact ⟨k₀, hcase, h⟩

end Boot

end Microkernel.Kernel
