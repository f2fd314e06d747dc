import Microkernel.Kernel.Memory
import Microkernel.Vmm.FrameAccount
import Microkernel.Vmm.FrameSupply

/-! # A heap whose initialisation failed

`kmalloc_init` returns early when a page of the heap cannot be mapped, and the `init` of the backend does
not run. `kmalloc` looks only at whether a backend is registered. The first-fit backend then has an
empty list. The slab backend has its next page at `NULL`: while no page can be mapped there, `kmalloc`
fails and changes nothing; once one can, it maps it, and after that it divides by an object size of `0`.

* **`FailedStart`** — the state that such a start leaves, for either backend.
* **`Uninitialised`** — the invariant that lasts as long as no page is mapped at `NULL`.
* **`kmalloc_refused_iff`** — in every run of harmless calls the next `kmalloc` is refused and maps
  nothing exactly when it is harmless itself.
-/

namespace Microkernel.Kernel

open Heap Vmm

section Model
variable {σ : Type*} (P : LawfulPmm σ)

/-- `kmalloc_init` returns early: one of its pages has no frame or cannot be mapped. -/
def KmallocInitFails (s : VmmState σ) : Prop :=
  (mapFreshPages P kheapStart kheapInitialPages.toNat 0#32 s).2 = false

/-- A start of the kernel's memory in which `kmalloc_init` returned early. -/
structure FailedStart (kernelEnd : U32) (table : U32 → U32 → U32) (pmm : σ) (backend : HeapBackend)
    (s : KernelState σ) : Prop where
  boot : kernelBoot P kernelEnd table pmm backend = some s
  early : ∀ t, vmmInit P.toPmmOps kernelEnd (vmmStatic table pmm) = some t →
    KmallocInitFails P (vmmUnmapIdentity t)

/-- A call of `kmalloc`, `pmm_alloc_page` or `pmm_free_page`. -/
inductive FrameCall where
  | kmalloc (size : U32)
  | allocPage
  | freePage (page : U32)

/-- One call. -/
def frameCall (s : KernelState σ) : FrameCall → Option (KernelState σ × U32)
  | .kmalloc size => kmalloc P size s
  | .allocPage =>
      let ret := P.allocPage s.vmm.pmm
      some ({ s with vmm := { s.vmm with pmm := ret.2 } }, ret.1)
  | .freePage page => some ({ s with vmm := { s.vmm with pmm := P.freePage page s.vmm.pmm } }, 0#32)

/-- The kernel's memory from a state on, with these calls. -/
def frameMachine (s : KernelState σ) : Machine (KernelState σ) FrameCall U32 := ⟨s, frameCall P⟩

/-- A page that is freed is in use and holds no page table. -/
def FreesLawfully (s : KernelState σ) : FrameCall → Prop
  | .freePage page => P.InUse s.vmm.pmm page ∧ ¬ s.vmm.IsTable page
  | _ => True

/-- **What a call of an unusable heap should do**: return `NULL` and map nothing. A call that divides by
zero does not return. -/
def KmallocRefused (s : KernelState σ) (size : U32) : Prop :=
  ∃ s', kmalloc P size s = some (s', 0#32) ∧
    ∀ v, v.PageAligned → s'.vmm.translate v = s.vmm.translate v

/-- No page can be mapped at `NULL`: `pmm_alloc_page` has no page, or `vmm_map_page` rejects the one that
it has, for want of a page table. -/
def NoPageAtNull (s : VmmState σ) : Prop :=
  (P.allocPage s.pmm).1 = 0#32 ∨
    (vmmMapPage P.toPmmOps 0#32 (P.allocPage s.pmm).1 (ptePresent ||| pteWritable)
      { s with pmm := (P.allocPage s.pmm).2 }).2 ≠ 0

/-- A size that the heap has to refuse without a slab, or no page for one. -/
def HarmlessSize (s : KernelState σ) (size : U32) : Prop :=
  match s.heap with
  | .firstFit _ => True
  | .slab _ => size = 0#32 ∨ 2048#32 < size ∨ NoPageAtNull P s.vmm

/-- A call that leaves an unusable heap unusable. -/
def Harmless (s : KernelState σ) (call : FrameCall) : Prop :=
  FreesLawfully P s call ∧ ∀ size, call = .kmalloc size → HarmlessSize P s size

end Model

/-! ### Page `NULL` after the start -/

section Null
variable {σ : Type*} {P : LawfulPmm σ} {s s' : VmmState σ}

/-- The first page is not mapped, or mapped to the first frame. -/
def NullOrIdentity (s : VmmState σ) : Prop :=
  s.translate 0#32 = none ∨ s.translate 0#32 = some 0#32

/-- The mapping loop of `vmm_init` maps the first page to the first frame, if at all. -/
theorem vmmInitLoop_null {mapEnd : U32} (hmax : mapEnd.toNat ≤ 2 ^ 30) (n : ℕ) {addr : U32}
    {ok : Bool} (haddr : addr.PageAligned) (h : s.WellFormed P.InUse) (hs : NullOrIdentity s)
    (hres : vmmInitLoop P.toPmmOps mapEnd n addr s = some (s', ok)) : NullOrIdentity s' := by
  refine (vmmInitLoop_invariant (I := fun t => t.WellFormed P.InUse ∧ NullOrIdentity t)
    (fun t addr virt ⟨hwf, ht⟩ _ hlt hvirt => ?_) n haddr ⟨h, hs⟩ hres).2
  obtain ⟨t', r, hres', hwf', -, hcase⟩ :=
    vmmMapPage_spec P.lawful hwf virt addr (ptePresent ||| pteWritable)
  rw [hres']
  refine ⟨hwf', ?_⟩
  unfold NullOrIdentity
  rcases hcase with ⟨-, htrans⟩ | ⟨-, -, htrans⟩
  · rwa [htrans]
  rw [htrans 0#32 (by decide)]
  split
  · -- the page of the high mapping is not the first one
    rename_i hzero
    rcases hvirt with rfl | rfl
    · exact .inr (by rw [← hzero]; rfl)
    · unfold kernelVirtOffset at hzero
      have hlt' := BitVec.lt_def.mp hlt
      bv_omega
  · exact ht

/-- The first page after `vmm_init` and `vmm_unmap_identity`. -/
theorem vmmInit_null {kernelEnd : U32} {table : U32 → U32 → U32} {pmm : σ}
    (hinit : vmmInit P.toPmmOps kernelEnd (vmmStatic table pmm) = some s) :
    (vmmUnmapIdentity s).WellFormed P.InUse ∧ NullOrIdentity (vmmUnmapIdentity s) := by
  obtain ⟨s', hinit', hwf, -⟩ := vmmInit_boot P.lawful kernelEnd table pmm
  obtain rfl := Option.some.inj (hinit.symm.trans hinit')
  obtain ⟨hwf', -, htrans⟩ := vmmUnmapIdentity_spec hwf
  refine ⟨hwf', ?_⟩
  by_cases hready : s.ready
  · left
    rw [htrans hready, if_pos (by decide)]
  · obtain ⟨s₁, ok, hloop, hcase⟩ := vmmInit_cases hinit
    obtain ⟨hwf₀, hentry₀⟩ := vmmCleared_spec P.InUse table pmm
    have hs₁ := vmmInitLoop_null (vmmMapEnd_spec P.toPmmOps kernelEnd pmm).2 _ (by decide) hwf₀
      (.inl (by rw [VmmState.translate_eq, hentry₀]; rfl)) hloop
    rw [vmmUnmapIdentity, if_pos hready]
    rcases hcase with ⟨-, rfl⟩ | ⟨-, rfl⟩
    · exact hs₁
    · exact absurd rfl hready

/-- The first page after the loop of `kmalloc_init`. -/
theorem kmallocInit_null (h : s.WellFormed P.InUse) (hs : NullOrIdentity s) {heap : KernelHeap}
    (hheap : heap.Sound) :
    (kmallocInit P s heap).1.WellFormed P.InUse ∧ NullOrIdentity (kmallocInit P s heap).1 := by
  refine (kmallocInit_invariant (I := fun u => u.WellFormed P.InUse ∧ NullOrIdentity u) ⟨h, hs⟩
    (fun v u hv _ ⟨hwf, hu⟩ => ?_) heap hheap).1
  obtain ⟨u', phys, ok, hres, hwf', -, hcase⟩ := mapFreshPage_spec hwf v
  rw [hres]
  refine ⟨hwf', ?_⟩
  unfold NullOrIdentity
  rcases hcase with ⟨-, hentry⟩ | ⟨-, -, -, -, -, -, -, htrans⟩
  · rwa [VmmState.translate_eq, hentry, ← VmmState.translate_eq]
  · have hne : (0#32 : U32) ≠ v := by
      rintro rfl
      exact absurd hv (by decide)
    rwa [htrans _ (by decide), if_neg hne]

/-- The page at `NULL` is not mapped exactly when a frame is missing. -/
theorem mapFreshPage_null_iff : (mapFreshPage P 0#32 s).2.2 = false ↔ NoPageAtNull P s := by
  unfold mapFreshPage NoPageAtNull
  dsimp only
  split
  · rename_i hnone
    exact iff_of_true rfl (.inl hnone)
  · rename_i hsome
    split
    · rename_i hrejected
      exact iff_of_true rfl (.inr hrejected)
    · rename_i hmapped
      exact iff_of_false (by simp) fun h => h.elim hsome hmapped

/-- **A request for a page at `NULL`** changes no translation when there is none, and maps the first page
to a frame that is not the first otherwise. -/
theorem mapFreshPage_null (h : s.WellFormed P.InUse) :
    ∃ s' phys, s'.WellFormed P.InUse ∧
      (NoPageAtNull P s ∧ mapFreshPage P 0#32 s = (s', phys, false) ∧
          (∀ v, s'.translate v = s.translate v) ∨
        ¬ NoPageAtNull P s ∧ mapFreshPage P 0#32 s = (s', phys, true) ∧ phys ≠ 0#32 ∧
          s'.translate 0#32 = some phys) := by
  obtain ⟨s', phys, ok, hres, hwf, -, hcase⟩ := mapFreshPage_spec h 0#32
  refine ⟨s', phys, hwf, ?_⟩
  have hiff := mapFreshPage_null_iff (P := P) (s := s)
  rw [hres] at hiff
  rcases hcase with ⟨rfl, hentry⟩ | ⟨rfl, hphys, -, -, -, -, -, htrans⟩
  · refine .inl ⟨hiff.mp rfl, hres, fun v => ?_⟩
    rw [VmmState.translate_eq, hentry, ← VmmState.translate_eq]
  · refine .inr ⟨fun hno => ?_, hres, hphys, ?_⟩
    · exact absurd (hiff.mpr hno) (by simp)
    · rw [htrans _ (by decide), if_pos rfl]

end Null

/-! ### `kmalloc` without initialisation -/

section Kmalloc
variable {σ : Type*} {P : LawfulPmm σ} {s : KernelState σ} {size : U32}

/-- Sizes above 2048 have no cache. -/
theorem findCache_eq_none_iff : findCache size = none ↔ 2048#32 < size := by
  simp only [findCache, cacheSizes, List.findIdx?_eq_none_iff]
  simp
  bv_omega

/-- The first-fit backend has an empty list. -/
theorem kmalloc_firstFit_static {header : U32 → BlockHeader}
    (hheap : s.heap = (HeapBackend.firstFit header).static) (size : U32) :
    kmalloc P size s = some (s, 0#32) := by
  obtain ⟨vmm, heap, pages⟩ := s
  obtain rfl : heap = _ := hheap
  rfl

/-- The slab backend refuses a size without a cache. -/
theorem kmalloc_slab_static_size {header : U32 → SlabHeader}
    (hheap : s.heap = (HeapBackend.slab header).static) (hsize : size = 0#32 ∨ 2048#32 < size) :
    kmalloc P size s = some (s, 0#32) := by
  obtain ⟨vmm, heap, pages⟩ := s
  obtain rfl : heap = _ := hheap
  rcases hsize with rfl | hsize
  · rfl
  · have hfind := findCache_eq_none_iff.mpr hsize
    simp only [kmalloc, HeapBackend.static, slabRequestPage, slabDividesByZero, slabCall,
      heapSlabAlloc, hfind, ite_self, Bool.false_eq_true, if_false, if_true, Option.map_some]

/-- The slab backend asks for a page at `NULL`, and fails with or without it. -/
theorem kmalloc_slab_static {header : U32 → SlabHeader}
    (hheap : s.heap = (HeapBackend.slab header).static) (hsize : ¬ (size = 0#32 ∨ 2048#32 < size))
    {vmm : VmmState σ} {phys : U32} {ok : Bool} (hpage : mapFreshPage P 0#32 s.vmm = (vmm, phys, ok)) :
    ∃ heap, kmalloc P size s = some ({ s with vmm := vmm, heap := heap }, 0#32) ∧
      (ok = false → heap = s.heap) := by
  obtain ⟨vmm₀, heap, pages⟩ := s
  obtain rfl : heap = _ := hheap
  obtain ⟨hne, hle⟩ := not_or.mp hsize
  obtain ⟨ci, hfind⟩ := Option.ne_none_iff_exists'.mp fun hnone => hle (findCache_eq_none_iff.mp hnone)
  obtain ⟨c, hc⟩ : ∃ c : SlabClient,
      c = ⟨⟨fun _ => ⟨0#32, 0#32, 0#32⟩, 0#32, 0#32, header⟩, []⟩ := ⟨_, rfl⟩
  have hpart : (c.heap.caches ci).partialSlabs = 0#32 := by rw [hc]
  have hbrk : c.heap.slabBrk = 0#32 := by rw [hc]
  have hcommitted : c.heap.slabCommitted = 0#32 := by rw [hc]
  have hbelow : ¬ c.heap.slabBrk ≥ kheapEnd := by
    rw [hbrk]
    decide
  have habove : c.heap.slabBrk ≥ c.heap.slabCommitted := by
    rw [hbrk, hcommitted]
    decide
  have hrequest : slabRequestPage P size c.heap vmm₀ = (vmm, phys, ok) := by
    rw [slabRequestPage, hfind]
    dsimp only
    rw [if_pos ⟨hne, hpart, BitVec.not_le.mp hbelow, habove⟩, hbrk]
    exact hpage
  -- the page is `NULL` in any case
  obtain ⟨heap', hget, hsame⟩ : ∃ heap', slabGetPage phys ok c.heap = (heap', 0#32) ∧
      (ok = false → heap' = c.heap) := by
    rw [slabGetPage, if_neg hbelow, if_pos habove, hbrk]
    by_cases hphys : phys = 0#32
    · exact ⟨_, if_pos hphys, fun _ => rfl⟩
    · rw [if_neg hphys]
      cases ok with
      | false => exact ⟨_, rfl, fun _ => rfl⟩
      | true => exact ⟨_, rfl, fun hok => absurd hok (by decide)⟩
  have halloc : heapSlabAlloc size phys ok c.heap = (heap', 0#32) := by
    simp only [heapSlabAlloc, if_neg hne, hfind, if_pos hpart, slabCreate, hget, if_true]
  have hdivides : slabDividesByZero size phys ok c.heap = false := by
    simp only [slabDividesByZero, hfind, hget]
    simp
  have hstatic : (HeapBackend.slab header).static = .slab c := by rw [hc, HeapBackend.static]
  refine ⟨.slab ⟨heap', c.live⟩, ?_, fun hok => ?_⟩
  · simp only [hstatic, kmalloc, hrequest, hdivides, slabCall, halloc, Bool.false_eq_true, if_false,
      if_true, Option.map_some]
  · rw [hsame hok]
    exact hstatic.symm

end Kmalloc

/-! ### Runs -/

section Runs
variable {σ : Type*} {P : LawfulPmm σ} {kernelEnd : U32} {table : U32 → U32 → U32} {pmm : σ}
  {backend : HeapBackend} {s₀ s : KernelState σ} {size : U32}

/-- **The invariant**: the heap has its static data, and the first page has no frame but the first. -/
structure Uninitialised (s : KernelState σ) (P : LawfulPmm σ) (backend : HeapBackend) : Prop where
  heap : s.heap = backend.static
  wellFormed : s.vmm.WellFormed P.InUse
  null : NullOrIdentity s.vmm

/-- A failed start leaves the heap with its static data. -/
theorem FailedStart.uninitialised (h : FailedStart P kernelEnd table pmm backend s) :
    Uninitialised s P backend := by
  obtain ⟨t, hinit, rfl⟩ := kernelBoot_cases h.boot
  obtain ⟨hwf, hnull⟩ := vmmInit_null hinit
  obtain ⟨hwf', hnull'⟩ := kmallocInit_null hwf hnull backend.static_sound
  have hearly := h.early t hinit
  unfold KmallocInitFails at hearly
  refine ⟨?_, hwf', hnull'⟩
  simp only [kmallocInit, hearly, Bool.false_eq_true, if_false]

/-- **One `kmalloc`**: a harmless one is refused and keeps the invariant, another one returns `NULL` as
well but maps the first page. -/
theorem Uninitialised.kmalloc (h : Uninitialised s P backend) (size : U32) :
    ∃ s', kmalloc P size s = some (s', 0#32) ∧
      (HarmlessSize P s size ∧ Uninitialised s' P backend ∧
          (∀ v, s'.vmm.translate v = s.vmm.translate v) ∨
        ¬ HarmlessSize P s size ∧ s'.vmm.translate 0#32 ≠ s.vmm.translate 0#32) := by
  have hheap := h.heap
  unfold HarmlessSize
  cases backend with
  | firstFit header =>
    rw [hheap]
    exact ⟨s, kmalloc_firstFit_static hheap size, .inl ⟨trivial, h, fun _ => rfl⟩⟩
  | slab header =>
    simp only [hheap, HeapBackend.static]
    by_cases hsize : size = 0#32 ∨ 2048#32 < size
    · exact ⟨s, kmalloc_slab_static_size hheap hsize,
        .inl ⟨hsize.imp_right .inl, h, fun _ => rfl⟩⟩
    obtain ⟨vmm, phys, hwf, ⟨hno, hpage, htrans⟩ | ⟨hyes, hpage, hphys, hmapped⟩⟩ :=
      mapFreshPage_null h.wellFormed
    · obtain ⟨heap, hres, hsame⟩ := kmalloc_slab_static hheap hsize hpage
      refine ⟨_, hres, .inl ⟨.inr (.inr hno), ⟨(hsame rfl).trans hheap, hwf, ?_⟩, htrans⟩⟩
      show NullOrIdentity vmm
      unfold NullOrIdentity
      rw [htrans]
      exact h.null
    · obtain ⟨heap, hres, -⟩ := kmalloc_slab_static hheap hsize hpage
      refine ⟨_, hres, .inr ⟨?_, ?_⟩⟩
      · rintro (hzero | hlarge | hno)
        exacts [hsize (.inl hzero), hsize (.inr hlarge), hyes hno]
      · show vmm.translate 0#32 ≠ _
        rw [hmapped]
        rcases h.null with hnull | hnull
        · rw [hnull]
          exact Option.some_ne_none _
        · rw [hnull]
          exact fun heq => hphys (Option.some.inj heq)

/-- A `kmalloc` is refused exactly when it is harmless. -/
theorem Uninitialised.refused_iff (h : Uninitialised s P backend) :
    KmallocRefused P s size ↔ HarmlessSize P s size := by
  obtain ⟨s', hres, hcase⟩ := h.kmalloc size
  constructor
  · rintro ⟨t, ht, htrans⟩
    obtain ⟨rfl, -⟩ := Prod.mk.inj (Option.some.inj (hres.symm.trans ht))
    rcases hcase with ⟨hharmless, -⟩ | ⟨-, hne⟩
    · exact hharmless
    · exact absurd (htrans 0#32 (by decide)) hne
  · intro hharmless
    rcases hcase with ⟨-, -, htrans⟩ | ⟨hnot, -⟩
    · exact ⟨s', hres, fun v _ => htrans v⟩
    · exact absurd hharmless hnot

/-- **One harmless call** keeps the invariant. -/
theorem Uninitialised.step (h : Uninitialised s P backend) {call : FrameCall}
    (hcall : Harmless P s call) {t : KernelState σ} {answer : U32}
    (hres : frameCall P s call = some (t, answer)) : Uninitialised t P backend := by
  cases call with
  | kmalloc size =>
    obtain ⟨s', hres', hcase⟩ := h.kmalloc size
    obtain ⟨rfl, -⟩ := Prod.mk.inj (Option.some.inj (hres'.symm.trans hres))
    rcases hcase with ⟨-, hinv, -⟩ | ⟨hnot, -⟩
    · exact hinv
    · exact absurd (hcall.2 size rfl) hnot
  | allocPage =>
    obtain ⟨rfl, -⟩ := Prod.mk.inj (Option.some.inj hres)
    exact ⟨h.heap, h.wellFormed.request.1, h.null⟩
  | freePage page =>
    obtain ⟨hused, htable⟩ := hcall.1
    obtain ⟨rfl, -⟩ := Prod.mk.inj (Option.some.inj hres)
    exact ⟨h.heap, h.wellFormed.free hused fun i hi => htable ⟨i, hi⟩, h.null⟩

/-- **A heap whose initialisation failed stays unusable as long as no page can be mapped at `NULL`.** In
every run of `kmalloc`, `pmm_alloc_page` and `pmm_free_page` whose calls so far were harmless, the next
`kmalloc` returns `NULL` and maps nothing exactly when it is harmless: with the first-fit backend always,
with the slab backend when no cache serves the size or no page can be mapped at `NULL`. -/
theorem kmalloc_refused_iff (hstart : FailedStart P kernelEnd table pmm backend s₀)
    (hs : (frameMachine P s₀).ReachableVia (Harmless P) s) (size : U32) :
    KmallocRefused P s size ↔ HarmlessSize P s size :=
  (hs.invariant (I := fun s => Uninitialised s P backend) hstart.uninitialised
    fun _ _ _ _ h hcall hres => h.step hcall hres).refused_iff

end Runs

/-! ### A machine without frames -/

/-- No free frame. -/
def noFrames : FreeFrames where
  frames := []
  nodup := List.nodup_nil
  good := by simp

/-- An allocator with a free list. -/
def fullPmm : LawfulPmm FreeFrames := freeListPmm 256#32 0x100000#32

/-- The page tables after a `vmm_init` that found no frame: the page directory has been cleared. -/
def fullVmm (pmm : FreeFrames) : VmmState FreeFrames := vmmCleared (fun _ _ => 0#32) pmm

/-- The slab backend over memory that holds zeros. -/
def zeroSlabs : HeapBackend :=
  .slab fun _ => ⟨0#32, 0#32, 0#32, 0#32, 0#32, fun _ => 0#32⟩

/-- The kernel's memory with these page tables and the static data of that backend. -/
def fullState (pmm : FreeFrames) : KernelState FreeFrames := ⟨fullVmm pmm, zeroSlabs.static, []⟩

/-- Nothing can be mapped without a frame. -/
theorem vmmMapPage_fullVmm (virt phys flags : U32) :
    vmmMapPage fullPmm.toPmmOps virt phys flags (fullVmm noFrames) = (fullVmm noFrames, -1) := by
  have hens : vmmEnsurePageTable fullPmm.toPmmOps (pdIndex virt) (fullVmm noFrames) =
      (fullVmm noFrames, 0#32) := by
    have hpd : ¬ IsPresent ((fullVmm noFrames).pd (pdIndex virt)) := by
      rw [fullVmm, vmmCleared_pd]
      decide
    unfold vmmEnsurePageTable
    dsimp only
    rw [if_neg hpd]
    rfl
  unfold vmmMapPage
  simp only [hens, if_true, ite_self]

/-- The start without frames: `vmm_init` and `kmalloc_init` fail. -/
theorem noFrames_start :
    FailedStart fullPmm 0x200000#32 (fun _ _ => 0#32) noFrames zeroSlabs (fullState noFrames) := by
  have hloop : vmmInitLoop fullPmm.toPmmOps (vmmMapEnd fullPmm.toPmmOps 0x200000#32 noFrames)
      (2 ^ 20) 0#32 (fullVmm noFrames) = some (fullVmm noFrames, false) := by
    have hlt : 0#32 < vmmMapEnd fullPmm.toPmmOps 0x200000#32 noFrames := by decide
    rw [show 2 ^ 20 = 1048575 + 1 from rfl, vmmInitLoop, if_pos hlt, vmmMapPage_fullVmm]
    rfl
  have hinit : vmmInit fullPmm.toPmmOps 0x200000#32 (vmmStatic (fun _ _ => 0#32) noFrames) =
      some (fullVmm noFrames) := by
    unfold vmmInit
    dsimp only
    exact (congrArg _ hloop).trans rfl
  have hearly : mapFreshPages fullPmm kheapStart kheapInitialPages.toNat 0#32 (fullVmm noFrames) =
      (fullVmm noFrames, false) := rfl
  constructor
  · unfold kernelBoot
    rw [hinit]
    rfl
  · intro t ht
    obtain rfl := Option.some.inj (hinit.symm.trans ht)
    exact congrArg Prod.snd hearly

/-- A frame that is not free can be freed: there are no page tables. -/
theorem fullState_frees {frames : FreeFrames} {f : U32} (hf : f ∉ frames.frames) :
    FreesLawfully fullPmm (fullState frames) (.freePage f) := by
  refine ⟨hf, ?_⟩
  rintro ⟨i, hi⟩
  change entryTarget ((fullVmm frames).pd i) = some f at hi
  rw [fullVmm, vmmCleared_pd, entryTarget_zero] at hi
  exact absurd hi (by simp)

/-- The first frame is freed. -/
def oneFrame : FreeFrames := FreeFrames.push 0x100000#32 noFrames

/-- After a refused `kmalloc` two frames are freed and one of them is taken. The other one is too few for a
page and its page table, so the next `kmalloc` gives it back and is refused, too. -/
theorem kmalloc_refused_oneFrame :
    (frameMachine fullPmm (fullState noFrames)).ReachableVia (Harmless fullPmm) (fullState oneFrame) ∧
      KmallocRefused fullPmm (fullState oneFrame) 32#32 := by
  have hsize : HarmlessSize fullPmm (fullState noFrames) 32#32 := .inr (.inr (.inl rfl))
  have hrefused : (frameMachine fullPmm (fullState noFrames)).ReachableVia (Harmless fullPmm)
      (fullState noFrames) :=
    .step (i := .kmalloc 32#32) .init ⟨trivial, by rintro size ⟨⟩; exact hsize⟩ rfl
  have hfreed : (frameMachine fullPmm (fullState noFrames)).ReachableVia (Harmless fullPmm)
      (fullState (FreeFrames.push 0x101000#32 oneFrame)) :=
    .step (i := .freePage 0x101000#32)
      (.step (i := .freePage 0x100000#32) hrefused ⟨fullState_frees (by decide), by rintro _ ⟨⟩⟩ rfl)
      ⟨fullState_frees (by decide), by rintro _ ⟨⟩⟩ rfl
  have htaken : (frameMachine fullPmm (fullState noFrames)).ReachableVia (Harmless fullPmm)
      (fullState oneFrame) := .step (i := .allocPage) hfreed ⟨trivial, by rintro _ ⟨⟩⟩ rfl
  have hnull : NoPageAtNull fullPmm (fullState oneFrame).vmm := by
    right
    change (vmmMapPage fullPmm.toPmmOps 0#32 0x100000#32 _ (fullVmm noFrames)).2 ≠ 0
    rw [vmmMapPage_fullVmm]
    decide
  exact ⟨htaken, (kmalloc_refused_iff noFrames_start htaken 32#32).mpr (.inr (.inr hnull))⟩

/-- The first three frames are freed. -/
def threeFrames : FreeFrames :=
  FreeFrames.push 0x102000#32 (FreeFrames.push 0x101000#32 (FreeFrames.push 0x100000#32 noFrames))

/-- After a start without frames three frames are freed. The next `kmalloc` of the slab backend returns
`NULL` and maps the first page, and the one after that divides by zero. -/
theorem kmalloc_refused_lost :
    FailedStart fullPmm 0x200000#32 (fun _ _ => 0#32) noFrames zeroSlabs (fullState noFrames) ∧
      (frameMachine fullPmm (fullState noFrames)).ReachableVia (FreesLawfully fullPmm)
        (fullState threeFrames) ∧
      ¬ KmallocRefused fullPmm (fullState threeFrames) 32#32 ∧
      ∃ s, kmalloc fullPmm 32#32 (fullState threeFrames) = some (s, 0#32) ∧
        s.vmm.translate 0#32 = some 0x102000#32 ∧ kmalloc fullPmm 32#32 s = none := by
  have hreach : (frameMachine fullPmm (fullState noFrames)).ReachableVia (FreesLawfully fullPmm)
      (fullState threeFrames) :=
    .step (i := .freePage 0x102000#32) (.step (i := .freePage 0x101000#32)
      (.step (i := .freePage 0x100000#32) .init (fullState_frees (by decide)) rfl)
      (fullState_frees (by decide)) rfl) (fullState_frees (by decide)) rfl
  have hcalls : (kmalloc fullPmm 32#32 (fullState threeFrames)).map (fun r =>
      (r.2, r.1.vmm.translate 0#32, (kmalloc fullPmm 32#32 r.1).isNone)) =
      some (0#32, some 0x102000#32, true) := by decide +kernel
  have hbefore : (fullState threeFrames).vmm.translate 0#32 = none := by decide +kernel
  obtain ⟨r, hr, hvalues⟩ := Option.map_eq_some_iff.mp hcalls
  obtain ⟨hnull, hmapped, hdivides⟩ : r.2 = 0#32 ∧ r.1.vmm.translate 0#32 = some 0x102000#32 ∧
      (kmalloc fullPmm 32#32 r.1).isNone = true := by simpa using hvalues
  refine ⟨noFrames_start, hreach, ?_, r.1, ?_, hmapped, Option.isNone_iff_eq_none.mp hdivides⟩
  · rintro ⟨s, hs, htrans⟩
    obtain rfl := Option.some.inj (hr.symm.trans hs)
    have hsame := htrans 0#32 (by decide)
    rw [hbefore, hmapped] at hsame
    exact absurd hsame (by simp)
  · rw [hr, ← hnull]

end Microkernel.Kernel
