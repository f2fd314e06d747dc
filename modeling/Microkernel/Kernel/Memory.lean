import Microkernel.Heap.FirstFit
import Microkernel.Heap.SlabRun
import Microkernel.Vmm.AllocPages

/-! # The memory of the kernel

The parts of kernel memory together, in the order in which `kmain` starts them: the page tables, the
removal of the identity map, and the heap with either backend on fresh pages from `KHEAP_START` on.
After that the kernel calls `kmalloc`, `kfree`, `vmm_alloc_pages` and `vmm_free_pages`.

* **`HeapBackend`, `KernelHeap`, `KernelState`** — the backend that is registered, its static data with
  the pointers of its callers, and all of the state.
* **`kernelBoot`, `kernelCall`, `kernelMachine`** — the start, a call and the machine of them, over any
  physical allocator that keeps what `LawfulPmm` says.
* **`kmalloc_cases`, `kfree_cases`** — what a call may do to the page tables: map one page where the heap
  maps, or nothing.
-/

namespace Microkernel.Kernel

open Heap Vmm

/-! ### The heap -/

/-- The registered heap backend, with what is in memory where it will keep its headers. -/
inductive HeapBackend where
  | firstFit (header : U32 → BlockHeader)
  | slab (header : U32 → SlabHeader)

/-- The heap and the pointers its callers hold. -/
inductive KernelHeap where
  | firstFit (c : HeapClient)
  | slab (c : SlabClient)

/-- The static data of a backend before `kmalloc_init`. -/
def HeapBackend.static : HeapBackend → KernelHeap
  | .firstFit header => .firstFit ⟨⟨0#32, 0#32, 0#32, 0#32, header⟩, []⟩
  | .slab header => .slab ⟨⟨fun _ => ⟨0#32, 0#32, 0#32⟩, 0#32, 0#32, header⟩, []⟩

/-- `g_heap_ops->init(start, size)`. -/
def KernelHeap.init (start size : U32) : KernelHeap → KernelHeap
  | .firstFit c => .firstFit ⟨heapFirstFitInit c.heap start size, []⟩
  | .slab c => .slab ⟨heapSlabInit c.heap start size, []⟩

/-- `KHEAP_INITIAL_PAGES`. -/
def kheapInitialPages : U32 := 16#32

/-- An address of the heap window. -/
def InKheap (v : U32) : Prop := kheapStart ≤ v ∧ v < kheapEnd

instance (v : U32) : Decidable (InKheap v) := inferInstanceAs (Decidable (_ ∧ _))

/-! ### The machine -/

/-- The page tables with the physical allocator, the heap, and the results of `vmm_alloc_pages` with
their numbers of pages. -/
structure KernelState (σ : Type*) where
  /-- The virtual memory manager. -/
  vmm : VmmState σ
  /-- The heap. -/
  heap : KernelHeap
  /-- The ranges that `vmm_alloc_pages` returned. -/
  pages : List (U32 × U32)

/-- A call of the kernel. -/
inductive KernelCall where
  | kmalloc (size : U32)
  | kfree (ptr : U32)
  | allocPages (count : U32)
  | freePages (vaddr count : U32)

section Machine
variable {σ : Type*} (P : LawfulPmm σ)

/-- `kmalloc_init()`: the initial pages of the heap, then the `init` of the backend. -/
def kmallocInit (s : VmmState σ) (heap : KernelHeap) : VmmState σ × KernelHeap :=
  let initialSize := kheapInitialPages * vmmPageSize
  let ret := mapFreshPages P kheapStart kheapInitialPages.toNat 0#32 s
  if ret.2 then (ret.1, heap.init kheapStart initialSize) else (ret.1, heap)

/-- What `slab_get_page` asks of the physical allocator and the page tables during
`heap_slab_alloc(size)`: the frame and whether the page was mapped. Nothing when a slab has a free
object, the heap has reached its end or the next page is mapped already. -/
def slabRequestPage (size : U32) (heap : SlabState) (s : VmmState σ) : VmmState σ × U32 × Bool :=
  match findCache size with
  | none => (s, 0#32, false)
  | some ci =>
      if size ≠ 0#32 ∧ (heap.caches ci).partialSlabs = 0#32 ∧ heap.slabBrk < kheapEnd ∧
          heap.slabBrk ≥ heap.slabCommitted then
        mapFreshPage P heap.slabBrk s
      else (s, 0#32, false)

/-- `slab_create` has a page and divides by an object size of `0`, which the caches have as long as
the heap has not been initialised. -/
def slabDividesByZero (size phys : U32) (mapOk : Bool) (heap : SlabState) : Bool :=
  match findCache size with
  | none => false
  | some ci =>
      size ≠ 0#32 ∧ (heap.caches ci).partialSlabs = 0#32 ∧
        (slabGetPage phys mapOk heap).2 ≠ 0#32 ∧ (heap.caches ci).objSize = 0#32

/-- `kmalloc(size)`, or `none` when it does not return. -/
def kmalloc (size : U32) (s : KernelState σ) : Option (KernelState σ × U32) :=
  match s.heap with
  | .firstFit c =>
      (heapCall c (.alloc size)).map fun r => ({ s with heap := .firstFit r.1 }, r.2)
  | .slab c =>
      let req := slabRequestPage P size c.heap s.vmm
      if slabDividesByZero size req.2.1 req.2.2 c.heap then none
      else
        (slabCall c (.alloc size req.2.1 req.2.2)).map fun r =>
          ({ s with vmm := req.1, heap := .slab r.1 }, r.2)

/-- `kfree(ptr)` of a pointer that a caller holds. -/
def kfree (ptr : U32) (s : KernelState σ) : Option (KernelState σ × U32) :=
  match s.heap with
  | .firstFit c => (heapCall c (.free ptr)).map fun r => ({ s with heap := .firstFit r.1 }, r.2)
  | .slab c => (slabCall c (.free ptr)).map fun r => ({ s with heap := .slab r.1 }, r.2)

/-- One call. Only ranges that `vmm_alloc_pages` returned are given to `vmm_free_pages`. -/
def kernelCall (s : KernelState σ) : KernelCall → Option (KernelState σ × U32)
  | .kmalloc size => kmalloc P size s
  | .kfree ptr => kfree ptr s
  | .allocPages count =>
      let (vmm, p) := vmmAllocPages P count s.vmm
      some ({ s with vmm := vmm, pages := if p = 0#32 then s.pages else (p, count) :: s.pages }, p)
  | .freePages vaddr count =>
      if s.pages.contains (vaddr, count) then
        some ({ s with vmm := vmmFreePages P vaddr count s.vmm }, 0#32)
      else some (s, 0#32)

/-- The start of the kernel's memory: `vmm_init`, `vmm_unmap_identity` and `kmalloc_init`. -/
def kernelBoot (kernelEnd : U32) (table : U32 → U32 → U32) (pmm : σ) (backend : HeapBackend) :
    Option (KernelState σ) :=
  (vmmInit P.toPmmOps kernelEnd (vmmStatic table pmm)).map fun s =>
    let ret := kmallocInit P (vmmUnmapIdentity s) backend.static
    { vmm := ret.1, heap := ret.2, pages := [] }

/-- The kernel's memory from a state on, as a machine. -/
def kernelMachine (s : KernelState σ) : Machine (KernelState σ) KernelCall U32 :=
  ⟨s, kernelCall P⟩

end Machine

/-! ### What the heap maps -/

/-- The region that `kmalloc_init` gives to the slab backend. -/
def kheapRegion : SlabRegion where
  start := kheapStart
  size := kheapInitialPages * vmmPageSize
  start_aligned := by decide
  start_ne_zero := by decide

/-- The slab backend without `kmalloc_init`: there are no slabs, and its pages start at `NULL`. -/
structure NoSlabs (c : SlabClient) : Prop where
  live : c.live = []
  caches : ∀ i, c.heap.caches i = ⟨0#32, 0#32, 0#32⟩
  brk : c.heap.slabBrk.toNat ≤ 4096

/-- **The heap is initialised or has no objects.** -/
def KernelHeap.Sound : KernelHeap → Prop
  | .firstFit _ => True
  | .slab c => (∃ part full, c.Describes kheapRegion part full) ∨ NoSlabs c

/-- The addresses where the heap maps pages: its window, and the first two pages when it has not been
initialised. -/
def HeapMaps (v : U32) : Prop := InKheap v ∨ v.toNat ≤ 4096

/-- Both heaps are sound in static data. -/
theorem HeapBackend.static_sound (backend : HeapBackend) : backend.static.Sound := by
  cases backend with
  | firstFit header => trivial
  | slab header => exact .inr ⟨rfl, fun _ => rfl, Nat.zero_le _⟩

/-- Either heap is sound after its initialisation. -/
theorem KernelHeap.init_sound (heap : KernelHeap) :
    (heap.init kheapStart (kheapInitialPages * vmmPageSize)).Sound := by
  cases heap with
  | firstFit c => trivial
  | slab c => exact .inl ⟨_, _, heapSlabInit_describes kheapRegion c.heap⟩

section Steps
variable {σ : Type*} {P : LawfulPmm σ} {s s' : KernelState σ} {answer : U32}

/-- A sound slab heap asks for a page where the heap maps. -/
theorem slabRequestPage_cases {c : SlabClient} (h : (KernelHeap.slab c).Sound) (size : U32)
    (t : VmmState σ) :
    (slabRequestPage P size c.heap t).1 = t ∨
      ∃ v, HeapMaps v ∧ (slabRequestPage P size c.heap t).1 = (mapFreshPage P v t).1 := by
  unfold slabRequestPage
  cases findCache size with
  | none => exact .inl rfl
  | some ci =>
    dsimp only
    split
    · rename_i hneeds
      obtain ⟨-, -, hlt, -⟩ := hneeds
      refine .inr ⟨_, ?_, rfl⟩
      rcases h with ⟨part, full, hdesc⟩ | hno
      · exact .inl ⟨hdesc.heap.start_le, hlt⟩
      · exact .inr hno.brk
    · exact .inl rfl

/-- An allocation without slabs does not return, or there are still none. -/
theorem NoSlabs.alloc {c c' : SlabClient} (h : NoSlabs c) {size phys : U32} {mapOk : Bool}
    (hdiv : ¬ slabDividesByZero size phys mapOk c.heap)
    (hres : slabCall c (.alloc size phys mapOk) = some (c', answer)) : NoSlabs c' := by
  -- the backend fails, and the next page is still one of the first two
  have halloc : ∃ heap, heapSlabAlloc size phys mapOk c.heap = (heap, 0#32) ∧
      heap.caches = c.heap.caches ∧ heap.slabBrk.toNat ≤ 4096 := by
    by_cases hsize : size = 0#32
    · exact ⟨c.heap, by rw [heapSlabAlloc, if_pos hsize], rfl, h.brk⟩
    cases hfind : findCache size with
    | none => exact ⟨c.heap, by simp only [heapSlabAlloc, if_neg hsize, hfind], rfl, h.brk⟩
    | some ci =>
      have hpart : (c.heap.caches ci).partialSlabs = 0#32 := by rw [h.caches]
      have hobj : (c.heap.caches ci).objSize = 0#32 := by rw [h.caches]
      rcases slabGetPage_spec c.heap phys mapOk with hpage | ⟨-, cm, hpage⟩
      · refine ⟨c.heap, ?_, rfl, h.brk⟩
        simp only [heapSlabAlloc, if_neg hsize, hfind, if_pos hpart, slabCreate, hpage, if_true]
      · -- a page other than `NULL` would be divided by `0`
        have hnull : c.heap.slabBrk = 0#32 := by
          by_contra hne
          apply hdiv
          simp only [slabDividesByZero, hfind, hpage]
          exact decide_eq_true ⟨hsize, hpart, hne, hobj⟩
        have hnext : c.heap.slabBrk + vmmPageSize = 4096#32 := by
          rw [hnull]
          rfl
        refine ⟨{ c.heap with
          slabBrk := c.heap.slabBrk + vmmPageSize
          slabCommitted := cm }, ?_, rfl, le_of_eq (congrArg BitVec.toNat hnext)⟩
        simp only [heapSlabAlloc, if_neg hsize, hfind, if_pos hpart, slabCreate, hpage,
          if_pos hnull, if_true]
  obtain ⟨heap, halloc, hcaches, hbrk⟩ := halloc
  simp only [slabCall, halloc, if_true] at hres
  obtain ⟨rfl, -⟩ := Prod.mk.inj (Option.some.inj hres)
  exact ⟨h.live, fun i => by rw [show heap.caches i = c.heap.caches i from congrFun hcaches i, h.caches],
    hbrk⟩

/-- A call keeps the slab heap sound. -/
theorem slabCall_sound {c c' : SlabClient} (h : (KernelHeap.slab c).Sound) {call : SlabCall}
    (hdiv : ∀ size phys mapOk, call = .alloc size phys mapOk →
      ¬ slabDividesByZero size phys mapOk c.heap)
    (hres : slabCall c call = some (c', answer)) : (KernelHeap.slab c').Sound := by
  rcases h with ⟨part, full, hdesc⟩ | hno
  · obtain ⟨c'', answer', hres', hdesc'⟩ := slabCall_describes hdesc call
    obtain ⟨rfl, -⟩ := Prod.mk.inj (Option.some.inj (hres'.symm.trans hres))
    exact .inl hdesc'
  · right
    cases call with
    | alloc size phys mapOk => exact hno.alloc (hdiv size phys mapOk rfl) hres
    | free ptr =>
      -- nobody holds a pointer
      have hnil : c.live.contains ptr = false := by rw [hno.live]; rfl
      simp only [slabCall, hnil, Bool.false_eq_true, if_false] at hres
      obtain ⟨rfl, -⟩ := Prod.mk.inj (Option.some.inj hres)
      exact hno

/-- **`kmalloc`** keeps the heap sound, and maps at most one page, where the heap maps. -/
theorem kmalloc_cases (h : s.heap.Sound) {size : U32} (hres : kmalloc P size s = some (s', answer)) :
    s'.heap.Sound ∧ s'.pages = s.pages ∧
      (s'.vmm = s.vmm ∨ ∃ v, HeapMaps v ∧ s'.vmm = (mapFreshPage P v s.vmm).1) := by
  unfold kmalloc at hres
  cases hheap : s.heap with
  | firstFit c =>
    rw [hheap] at hres
    obtain ⟨r, -, hr⟩ := Option.map_eq_some_iff.mp hres
    obtain ⟨rfl, -⟩ := Prod.mk.inj hr
    exact ⟨trivial, rfl, .inl rfl⟩
  | slab c =>
    rw [hheap] at h hres
    dsimp only at hres
    split at hres
    · exact absurd hres (by simp)
    · rename_i hdiv
      obtain ⟨r, hcall, hr⟩ := Option.map_eq_some_iff.mp hres
      obtain ⟨rfl, -⟩ := Prod.mk.inj hr
      refine ⟨slabCall_sound h ?_ hcall, rfl, slabRequestPage_cases h size s.vmm⟩
      intro size' phys mapOk heq
      obtain ⟨rfl, rfl, rfl⟩ := SlabCall.alloc.inj heq
      exact hdiv

/-- **`kfree`** keeps the heap sound, and maps nothing. -/
theorem kfree_cases (h : s.heap.Sound) {ptr : U32} (hres : kfree ptr s = some (s', answer)) :
    s'.heap.Sound ∧ s'.pages = s.pages ∧ s'.vmm = s.vmm := by
  unfold kfree at hres
  cases hheap : s.heap with
  | firstFit c =>
    rw [hheap] at hres
    obtain ⟨r, -, hr⟩ := Option.map_eq_some_iff.mp hres
    obtain ⟨rfl, -⟩ := Prod.mk.inj hr
    exact ⟨trivial, rfl, rfl⟩
  | slab c =>
    rw [hheap] at h hres
    obtain ⟨r, hcall, hr⟩ := Option.map_eq_some_iff.mp hres
    obtain ⟨rfl, -⟩ := Prod.mk.inj hr
    refine ⟨slabCall_sound h ?_ hcall, rfl, rfl⟩
    intro size phys mapOk heq
    exact absurd heq (by simp)

/-- A fact that mapping a page where the heap maps leaves alone holds after the loop of
`kmalloc_init`. -/
theorem kmallocInit_invariant {I : VmmState σ → Prop} {t : VmmState σ} (h : I t)
    (hstep : ∀ v t, InKheap v → v.PageAligned → I t → I (mapFreshPage P v t).1)
    (heap : KernelHeap) (hheap : heap.Sound) :
    I (kmallocInit P t heap).1 ∧ (kmallocInit P t heap).2.Sound := by
  have hwindow : ∀ i : ℕ, i < 16 →
      InKheap (kheapStart + BitVec.ofNat 32 i * vmmPageSize) ∧
        (kheapStart + BitVec.ofNat 32 i * vmmPageSize).PageAligned := by decide
  have hloop : ∀ n i (t : VmmState σ), i + n ≤ 16 → I t →
      I (mapFreshPages P kheapStart n (BitVec.ofNat 32 i) t).1 := by
    intro n
    induction n with
    | zero => exact fun _ _ _ ht => ht
    | succ n ih =>
      intro i t hi ht
      obtain ⟨hin, halign⟩ := hwindow i (by omega)
      have hnext := hstep _ t hin halign ht
      unfold mapFreshPages
      dsimp only
      split
      · rw [show BitVec.ofNat 32 i + 1#32 = BitVec.ofNat 32 (i + 1) from (BitVec.ofNat_add i 1).symm]
        exact ih (i + 1) _ (by omega) hnext
      · exact hnext
  have hI := hloop 16 0 t le_rfl h
  unfold kmallocInit
  dsimp only
  split
  · exact ⟨hI, KernelHeap.init_sound heap⟩
  · exact ⟨hI, hheap⟩

/-- The parts of the start. -/
theorem kernelBoot_cases {kernelEnd : U32} {table : U32 → U32 → U32} {pmm : σ} {backend : HeapBackend}
    (h : kernelBoot P kernelEnd table pmm backend = some s) :
    ∃ t, vmmInit P.toPmmOps kernelEnd (vmmStatic table pmm) = some t ∧
      s = ⟨(kmallocInit P (vmmUnmapIdentity t) backend.static).1,
        (kmallocInit P (vmmUnmapIdentity t) backend.static).2, []⟩ := by
  obtain ⟨t, hinit, rfl⟩ := Option.map_eq_some_iff.mp h
  exact ⟨t, hinit, rfl⟩

/-- `kmalloc_init` leaves the static data of the virtual memory manager alone. -/
theorem kmallocInit_static {t : VmmState σ} (h : t.WellFormed P.InUse) {heap : KernelHeap}
    (hheap : heap.Sound) :
    (kmallocInit P t heap).1.ready = t.ready ∧ (kmallocInit P t heap).1.nextVaddr = t.nextVaddr ∧
      (kmallocInit P t heap).1.directMapEnd = t.directMapEnd := by
  refine (kmallocInit_invariant
    (I := fun u => u.WellFormed P.InUse ∧ u.ready = t.ready ∧ u.nextVaddr = t.nextVaddr ∧
      u.directMapEnd = t.directMapEnd)
    ⟨h, rfl, rfl, rfl⟩ (fun v u _ _ ⟨hwf, hready, hnext, hend⟩ => ?_) heap hheap).1.2
  obtain ⟨s', phys, ok, hres, hwf', hext, -⟩ := mapFreshPage_spec hwf v
  rw [hres]
  exact ⟨hwf', hext.ready.trans hready, hext.nextVaddr.trans hnext, hext.directMapEnd.trans hend⟩

end Steps

end Microkernel.Kernel
