import Microkernel.Kernel.PagedAccount
import Microkernel.Kernel.PmmCoverage
import Microkernel.Vmm.FrameRequests

/-! # Page frames are conserved in physical memory

Runs of `vmm_alloc_pages` and `vmm_free_pages` over physical memory, with writes by ring 0 in between.

* **`PagedKernel.Conserved`** says that a frame is free, a page table, or under exactly one page of a live
  range, and that their numbers keep their sum.
* **`PagedKernel.FreesOnce`** says that giving a range back frees each of its frames once.
* **`pages_conserved`** proves both along every run, as long as the frames that the physical allocator gives
  lie below the end of the direct map.
* **`pages_conserved_lost`** is the other side: a page table comes to lie in the frame at the end of the
  direct map, its pointer leads to a page that is handed out, and a page is lost. `GivesAbove` goes
  through that run by stages.
-/

namespace Microkernel.Kernel

open Heap Pmm Vma Vmm
open Paging (pageOf)

/-! ### The property -/

section Property
variable {σ : Type*} {ρ : Type}

/-- **Page frames are conserved**: the live ranges have no page in common, their pages are mapped to
distinct frames that hold no page table, and the free frames, the live pages and the page tables add up to
what they were at the start. -/
structure PagedKernel.Conserved (P : CountingPmm σ) (k₀ k : PagedKernel σ ρ) : Prop where
  disjoint : k.live.Pairwise fun r r' => ∀ v, PagesOf r.1 r.2 v → ¬ PagesOf r'.1 r'.2 v
  mapped : ∀ r ∈ k.live, ∀ v, PagesOf r.1 r.2 v →
    ∃ f, k.memory.Finds v f ∧ P.InUse k.memory.pmm f ∧ ¬ k.memory.IsTable f
  distinct : ∀ r ∈ k.live, ∀ r' ∈ k.live, ∀ v w f, PagesOf r.1 r.2 v → PagesOf r'.1 r'.2 w →
    k.memory.Finds v f → k.memory.Finds w f → v = w
  total : (P.freePages k.memory.pmm).toNat + pageTotal k.live + k.tableCount =
    (P.freePages k₀.memory.pmm).toNat + k₀.tableCount

/-- **A range is given back**: `vmm_free_pages` returns, none of the pages is mapped any more, and the calls
of `pmm_free_page` were one for each frame under the range, which are the frames that are not in use any
more. -/
structure PagedKernel.FreesOnce (P : CountingPmm σ) (k : PagedKernel σ ρ) (m' : PagedMemory σ) (p count : U32)
    (frames : List U32) : Prop where
  returns : Vmm.InMemory.vmmFreePages P.toLawfulPmm p count k.memory = some m'
  unmapped : ∀ v, PagesOf p count v → m'.Unmapped v
  nodup : frames.Nodup
  length : frames.length = count.toNat
  under : ∀ f, f ∈ frames ↔ ∃ v, PagesOf p count v ∧ k.memory.Finds v f
  inUse : ∀ f, P.InUse m'.pmm f ↔ P.InUse k.memory.pmm f ∧ f ∉ frames
  calls : (Vmm.InMemory.vmmFreePages P.toLawfulPmm.recording p count (k.memory.recorded [])).map (·.pmm) =
    some (m'.pmm, frames)

end Property

/-! ### The run over separate tables -/

/-- A call of the page allocator: a request is turned away by a check or ends in front of the heap window,
and a range that is given back is live. A write does not go through the pointer to a page table. -/
def PagedKernel.PageRoom {σ : Type*} {ρ : Type} (k : PagedKernel σ ρ) : PagedCall → Prop
  | .call (.allocPages count) =>
      k.memory.Rejects count ∨ k.memory.nextVaddr.toNat + count.toNat * 4096 ≤ kheapStart.toNat
  | .call (.freePages vaddr count) => (vaddr, count) ∈ k.live
  | .call _ => False
  | .write v _ => ∀ f, k.memory.IsTable f → pageOf v ≠ pageOf (physToVirt f)

/-- What the run of pages allows, the run of the kernel allows. -/
theorem PagedKernel.PageRoom.inRoom {σ : Type*} {ρ : Type} {k : PagedKernel σ ρ} {call : PagedCall}
    (h : k.PageRoom call) : k.InRoom call := by
  cases call with
  | write v x => exact h
  | call call =>
    cases call with
    | allocPages count => exact Or.imp_right .inl h
    | freePages vaddr count => trivial
    | kmalloc size => trivial
    | kfree ptr => trivial

/-- Such a call over separate tables. -/
def RegisteredState.PageRoom {σ : Type*} {ρ : Type} (p : RegisteredState σ ρ) : KernelCall → Prop
  | .allocPages count => p.kernel.vmm.Rejects count ∨ RoomFor p.kernel.vmm.nextVaddr count
  | .freePages vaddr count => (vaddr, count) ∈ p.live
  | _ => False

section Runs
variable {σ : Type*} {ρ : Type} {P : LawfulPmm σ} {B : VmaOps ρ} {name : NamePtr} {D : U32 → Prop}
  {base : ℕ} {k k₀ : PagedKernel σ ρ} {p p₀ : RegisteredState σ ρ}

/-- And the run over separate tables. -/
theorem PagedKernel.PageRoom.registered {call : KernelCall} (h : k.Implements p)
    (hroom : k.PageRoom (.call call)) : p.PageRoom call := by
  cases call with
  | allocPages count =>
    have hroom' : k.memory.Rejects count ∨ k.memory.nextVaddr.toNat + count.toNat * 4096 ≤ kheapStart.toNat :=
      hroom
    rw [h.memory.rejects_iff, h.memory.nextVaddr] at hroom'
    exact hroom'.imp_right .inl
  | freePages vaddr count =>
    have hroom' : (vaddr, count) ∈ k.live := hroom
    rw [h.live] at hroom'
    exact hroom'
  | kmalloc size => exact hroom.elim
  | kfree ptr => exact hroom.elim

/-- **A run of these calls** is one of the page allocator, and its live ranges are results. -/
theorem registeredMachine_pages (hlive : p₀.live = [])
    (hp : (registeredMachine P B name p₀).ReachableVia RegisteredState.PageRoom p) :
    (pageMachine P p₀.kernel.vmm).ReachableVia PageClient.InRoom ⟨p.kernel.vmm, p.live⟩ ∧
      ∀ r ∈ p.live, r ∈ p.kernel.pages := by
  induction hp with
  | init =>
    refine ⟨?_, fun r hr => absurd (hlive ▸ hr) List.not_mem_nil⟩
    show (pageMachine P p₀.kernel.vmm).ReachableVia _ ⟨p₀.kernel.vmm, p₀.live⟩
    rw [hlive]
    exact .init
  | @step p p' call answer _ hroom hres ih =>
    obtain ⟨hreach, hsub⟩ := ih
    cases call with
    | kmalloc size => exact hroom.elim
    | kfree ptr => exact hroom.elim
    | allocPages count =>
      obtain ⟨⟨⟨s', r'⟩, q⟩, hcall, hr⟩ := Option.map_eq_some_iff.mp hres
      obtain ⟨rfl, rfl⟩ := Prod.mk.inj hr
      have halloc := vmmAllocPagesRegistered_eq hcall
      refine ⟨.step hreach (i := .alloc count) hroom (o := q) ?_, fun r hr => ?_⟩
      · have hstep : pageCall P ⟨p.kernel.vmm, p.live⟩ (.alloc count) =
            some (⟨s', if q = 0#32 then p.live else (q, count) :: p.live⟩, q) := by
          unfold pageCall
          simp only [halloc]
        exact hstep
      · dsimp only at hr ⊢
        split at hr
        · rename_i hnull
          rw [if_pos hnull]
          exact hsub r hr
        · rename_i hne
          rw [if_neg hne]
          rcases List.mem_cons.mp hr with rfl | hr
          · exact List.mem_cons_self
          · exact List.mem_cons_of_mem _ (hsub r hr)
    | freePages vaddr count =>
      -- what is live is a result, so that the call is made
      have hheld : p.kernel.pages.contains (vaddr, count) = true :=
        List.contains_iff_mem.mpr (hsub _ hroom)
      have hcall' : registeredCall P B name p (.freePages vaddr count) = some (p', answer) := hres
      unfold registeredCall at hcall'
      dsimp only at hcall'
      rw [if_pos hheld] at hcall'
      obtain ⟨⟨s', r'⟩, hcall, hr⟩ := Option.map_eq_some_iff.mp hcall'
      obtain ⟨rfl, rfl⟩ := Prod.mk.inj hr
      obtain rfl := vmmFreePagesRegistered_eq hcall
      refine ⟨.step hreach (i := .free vaddr count) trivial (o := 0#32) ?_, fun r hr => ?_⟩
      · have hstep : pageCall P ⟨p.kernel.vmm, p.live⟩ (.free vaddr count) =
            some (⟨vmmFreePages P vaddr count p.kernel.vmm, p.live.erase (vaddr, count)⟩, 0#32) := by
          unfold pageCall
          dsimp only
          rw [if_pos (List.contains_iff_mem.mpr hroom)]
        exact hstep
      · exact hsub r (List.mem_of_mem_erase hr)

end Runs

/-! ### A frame above the direct map -/

/-- Memory from 1 MiB on, and 8 pages around 16 MiB. -/
def aboveMap : List Mb2MmapEntry :=
  [⟨0x100000#64, 0x118000#64, 1#32⟩, ⟨0xFF9000#64, 0x8000#64, 1#32⟩]

/-- The layouts of the two regions. -/
theorem aboveMap_layouts : bitmapLayouts aboveMap lowKernel lowInfo =
    [⟨0x100000#32, 0x218000#32, 0x201000#32, 0x218000#32, 23#32, 3#32, 4096#32, 1#32⟩,
      ⟨0xFF9000#32, 0x1001000#32, 0xFF9000#32, 0x1001000#32, 8#32, 1#32, 4096#32, 1#32⟩] := rfl

/-- Requests of a page: what they are answered, and the allocator afterwards. -/
def bitmapRequests : ℕ → BitmapPmm → List U32 × BitmapPmm
  | 0, p => ([], p)
  | n + 1, p =>
      let r := pmmBitmapAllocPage p
      let rest := bitmapRequests n r.1
      (r.2 :: rest.1, rest.2)

/-- The pages of the two regions in the order in which they are given, and then none. -/
def aboveFrames : List U32 :=
  (List.range 22).map (fun k => BitVec.ofNat 32 (0x202000 + k * 4096)) ++
    (List.range 7).map (fun k => BitVec.ofNat 32 (0xFFA000 + k * 4096)) ++ [0#32]

/-- When the last two pages are given back, they are the next that are given. -/
theorem aboveMap_requests : (pmmBitmapInit (fun _ => 0#8) aboveMap lowKernel lowInfo).map (fun p =>
      let r := bitmapRequests 30 p
      (r.1, (bitmapRequests 2 (pmmBitmapFreePage 0x1000000#32 (pmmBitmapFreePage 0xFFF000#32 r.2))).1,
        pmmBitmapTotalPages p, pmmBitmapManagedBase p)) =
    some (aboveFrames, [0xFFF000#32, 0x1000000#32], 31#32, 0x201000#32) := by
  decide +kernel

/-- Requests over the backend are those over its statics. -/
theorem bitmapRequests_after {Z : PmmZone} (n : ℕ) {q : PmmIn Z} {p : BitmapPmm} (hq : q.val = .bitmap p) :
    ((pmmBackend Z).after q n).val = .bitmap (bitmapRequests n p).2 ∧
      ∀ k < n, ((pmmBackend Z).allocPage ((pmmBackend Z).after q k)).1 = (bitmapRequests n p).1.getD k 0#32 := by
  induction n generalizing q p with
  | zero => exact ⟨hq, fun k hk => absurd hk (Nat.not_lt_zero k)⟩
  | succ n ih =>
    have halloc := q.allocPage_eq
    rw [hq] at halloc
    obtain ⟨hpage, hstate⟩ := Prod.mk.inj (Option.some.inj halloc)
    obtain ⟨hval, hanswers⟩ := ih hstate.symm
    refine ⟨?_, fun k hk => ?_⟩
    · rw [← (pmmBackend Z).after_alloc]
      exact hval
    · cases k with
      | zero => exact hpage.symm
      | succ k =>
        rw [← (pmmBackend Z).after_alloc]
        exact hanswers k (Nat.lt_of_succ_lt_succ hk)

/-- **An allocator with a frame above the direct map**: its answers up to the last one, and again after the
last two pages have been given back. -/
structure GivesAbove {σ : Type*} (P : LawfulPmm σ) (kernelEnd : U32) (q : σ) : Prop where
  mapEnd : vmmMapEnd P.toPmmOps kernelEnd q = 0x1000000#32
  low : ∀ p, (P.allocPage p).1.toNat < 2 ^ 30
  answers : ∀ k < 30, (P.allocPage (P.after q k)).1 = aboveFrames.getD k 0#32
  again : ∀ k < 2, (P.allocPage (P.after (P.freePage 0x1000000#32 (P.freePage 0xFFF000#32 (P.after q 30))) k)).1 =
    [0xFFF000#32, 0x1000000#32].getD k 0#32

/-- The bitmap allocator of this memory is such. -/
theorem aboveMap_gives {p : BitmapPmm} (hinit : pmmBitmapInit (fun _ => 0#8) aboveMap lowKernel lowInfo = some p) :
    ∃ h : (PmmState.bitmap p).InZone (.bitmap p),
      GivesAbove (pmmBackend (.bitmap p)) lowKernel.stop ⟨.bitmap p, h⟩ := by
  obtain ⟨p', hinit', hsound, hplaced, -⟩ := pmmBitmapInit_regions (fun _ => 0#8) aboveMap lowKernel lowInfo
  obtain rfl := Option.some.inj (hinit'.symm.trans hinit)
  have hranges : regionRanges p' = [(0x201000, 0x218000), (0xFF9000, 0x1001000)] := by
    rw [regionRanges_placed hplaced, aboveMap_layouts]
    rfl
  have hapart : p'.Apart := by
    rw [aboveMap_layouts] at hplaced
    exact apart_of_layouts (by decide) (by decide) hplaced
  have hzone : (PmmState.bitmap p').InZone (.bitmap p') := ⟨hsound, hapart, .refl p'⟩
  have hrequests := aboveMap_requests
  rw [hinit, Option.map_some, Option.some.injEq] at hrequests
  obtain ⟨hanswers, hrest⟩ := Prod.mk.inj hrequests
  obtain ⟨hagain, hrest⟩ := Prod.mk.inj hrest
  obtain ⟨htotal, hbase⟩ := Prod.mk.inj hrest
  obtain ⟨hafter, hgiven⟩ := bitmapRequests_after (Z := .bitmap p') 30 (q := ⟨.bitmap p', hzone⟩) rfl
  refine ⟨hzone, ?_, fun q => ?_, fun k hk => (hgiven k hk).trans (by rw [hanswers]), fun k hk => ?_⟩
  · apply BitVec.eq_of_toNat_eq
    rw [vmmMapEnd_toNat]
    show (min (max (max 0x200000 0x1000000)
      (pmmBitmapManagedBase p' + pmmBitmapTotalPages p' * vmmPageSize).toNat) 0x40000000 + 4095) / 4096 * 4096 = _
    rw [htotal, hbase]
    decide
  · by_cases hne : q.allocPage.1 = 0#32
    · show q.allocPage.1.toNat < _
      rw [hne]
      decide
    · obtain ⟨-, r, hr, -, hle⟩ := (bitmap_reports hsound hapart).pages _ hzone _ (q.allocPage_hasPage hne)
      rw [hranges] at hr
      have hmax : ∀ r ∈ [(0x201000, 0x218000), (0xFF9000, 0x1001000)], r.2 ≤ 2 ^ 30 := by decide
      have hle' := hmax r hr
      show q.allocPage.1.toNat < _
      omega
  · have hfreed : ((pmmBackend (.bitmap p')).freePage 0x1000000#32 ((pmmBackend (.bitmap p')).freePage
        0xFFF000#32 ((pmmBackend (.bitmap p')).after ⟨.bitmap p', hzone⟩ 30))).val =
        .bitmap (pmmBitmapFreePage 0x1000000#32 (pmmBitmapFreePage 0xFFF000#32 (bitmapRequests 30 p').2)) := by
      have hval : ∀ f q, ((pmmBackend (.bitmap p')).freePage f q).val = pmmFreePage f q.val := fun _ _ => rfl
      rw [hval, hval, hafter]
      rfl
    rw [(bitmapRequests_after 2 hfreed).2 k hk, hagain]

/-! ### A run -/

/-- The frames of its page tables. -/
def AboveTable (f : U32) : Prop := f < 0x1000000#32 ∧ f ≠ 0xFFD000#32 ∧ f ≠ 0xFFF000#32

instance (f : U32) : Decidable (AboveTable f) := inferInstanceAs (Decidable (_ ∧ _))

/-- The pointers to them are neither `NULL` nor the page behind the direct map. -/
theorem AboveTable.pointer {f : U32} (h : AboveTable f) :
    physToVirt f ≠ 0#32 ∧ physToVirt f ≠ 0xC1000000#32 := by
  have hlt := h.1
  unfold physToVirt kernelVirtOffset
  constructor <;> bv_omega

/-- The pages behind the direct map. -/
theorem AboveTable.not_isPointer {v : U32} (hv : 0xC1000000 ≤ v.toNat) : ¬ IsPointer AboveTable v := by
  rintro ⟨f, ⟨hlt, -⟩, rfl⟩
  unfold physToVirt kernelVirtOffset at hv
  bv_omega

section Above
variable {σ : Type*} {P : LawfulPmm σ} {kernelEnd : U32} {q : σ} {m : PagedMemory σ} {s : VmmState σ}

/-- The pages of `kmalloc_init` lie behind the direct map and, but for the first, below one page table. -/
theorem kheapPages_behind : ∀ k < kheapInitialPages.toNat,
    0xC1000000 ≤ (kheapStart + (0#32 + BitVec.ofNat 32 k) * vmmPageSize).toNat ∧
      (pdIndex (kheapStart + (0#32 + BitVec.ofNat 32 k) * vmmPageSize)).toNat = 896 := by
  decide

/-- `mappedPages` returns when the loop does. -/
theorem mappedPages_returns {start : U32} (n : ℕ) {i : U32} {r : PagedMemory σ × Bool}
    (h : Vmm.InMemory.mapFreshPages P start n i m = some r) :
    ∃ pages, InMemory.mappedPages P start n i m = some pages := by
  induction n generalizing i m with
  | zero => exact ⟨[], rfl⟩
  | succ n ih =>
    obtain ⟨r₁, hr₁, hrest⟩ := Option.bind_eq_some_iff.mp h
    unfold InMemory.mappedPages
    rw [hr₁, Option.bind_some]
    split at hrest
    · rename_i hok
      obtain ⟨pages, hpages⟩ := ih hrest
      rw [if_pos hok, hpages]
      exact ⟨_, rfl⟩
    · rename_i hok
      rw [if_neg hok]
      exact ⟨_, rfl⟩

/-- **The start**: 25 requests, and nothing is mapped between the direct map and the heap. -/
theorem GivesAbove.boot (h : GivesAbove P kernelEnd q) (names : AreaNames) (backend : HeapBackend)
    (state : SaState) :
    ∃ k₀ s, InMemory.kernelBoot P saOps names kernelEnd (fun _ _ => 0#32) q backend state = some k₀ ∧
      k₀.memory.Follows s P AboveTable 0xC1000000#32 (P.after q 25) {768, 769, 770, 771, 896} ∧
      k₀.memory.ready ∧ k₀.memory.nextVaddr = 0xC1000000#32 ∧ k₀.live = [] ∧
      ∀ v, v.PageAligned → 0xC1000000 ≤ v.toNat → v.toNat < 0xE0000000 → s.translate v = none := by
  have hcard : (bootEntries 0x1000000#32).card = 8 := by decide +kernel
  have hfilter : (bootEntries 0x1000000#32).filter (768 ≤ ·) = {768, 769, 770, 771} := by decide +kernel
  -- eight page tables for the two halves of the boot map
  obtain ⟨m, s, hinit, hm, hready, hnext, htrans⟩ := @vmmInit_follows _ P _ _ q (fun f hf => AboveTable.pointer hf)
    kernelEnd (fun _ _ => 0#32) (by rw [h.mapEnd]; exact fun f hf => hf.1) h.low (fun _ => rfl) (by
      rw [h.mapEnd, hcard]
      intro n hn
      rw [h.answers n (by omega)]
      revert n
      decide)
  rw [h.mapEnd] at hm hnext htrans
  rw [hcard, hfilter] at hm
  -- the identity half goes
  obtain ⟨m₁, hm₁⟩ : ∃ m₁, m₁ = Vmm.InMemory.vmmUnmapIdentity m := ⟨_, rfl⟩
  rw [← hm₁] at hm
  -- the first page of the heap gets a page table, and the others are below it
  have hfirst := kheapPages_behind 0 (by decide)
  have hanswer := h.answers 8 (by omega)
  have htable := h.answers 9 (by omega)
  obtain ⟨m₂, s₂, hres₂, hm₂, hstatic₂, htrans₂⟩ := hm.mapFreshPage (fun f hf => AboveTable.pointer hf)
    (page_aligned (by decide) 0#32) (page_zero kheapStart 0#32 ▸ AboveTable.not_isPointer hfirst.1)
    (Prod.mk.eta.symm) (by rw [hanswer]; decide)
    (r := P.after q 10) (.inr ⟨by decide, rfl, by
      show (P.allocPage (P.after q 9)).1 ≠ _
      rw [htable]
      decide, by
      show AboveTable (P.allocPage (P.after q 9)).1
      rw [htable]
      decide⟩)
  rw [show insert (pdIndex (kheapStart + 0#32 * vmmPageSize)).toNat ({768, 769, 770, 771} : Finset ℕ) =
    {768, 769, 770, 771, 896} by decide] at hm₂
  obtain ⟨m₃, s₃, hres₃, hm₃, hstatic₃, htrans₃⟩ := PagedMemory.Follows.mapFreshPages
    (fun f hf => AboveTable.pointer hf) 15 (i := 0#32 + 1#32) hm₂
    (show kheapStart.PageAligned by decide)
    (fun k hk => by
      rw [page_succ]
      obtain ⟨hge, hindex⟩ := kheapPages_behind (k + 1) (Nat.succ_lt_succ hk)
      refine ⟨AboveTable.not_isPointer hge, ?_⟩
      rw [hindex]
      decide)
    (fun k hk => by
      rw [P.after_add, h.answers _ (by omega)]
      revert k
      decide)
  rw [P.after_add] at hm₃
  have hres : Vmm.InMemory.mapFreshPages P kheapStart kheapInitialPages.toNat 0#32 m₁ = some (m₃, true) := by
    show (Vmm.InMemory.mapFreshPage P (kheapStart + 0#32 * vmmPageSize) m₁).bind _ = _
    rw [hres₂, Option.bind_some, if_pos rfl]
    exact hres₃
  obtain ⟨pages, hpages⟩ := mappedPages_returns _ hres
  -- the registration does not touch the tables
  obtain ⟨k₀, hboot, hmemory, hlive⟩ : ∃ k₀, InMemory.kernelBoot P saOps names kernelEnd (fun _ _ => 0#32) q
      backend state = some k₀ ∧ k₀.memory = m₃ ∧ k₀.live = [] := by
    unfold InMemory.kernelBoot InMemory.kmallocInit
    rw [hinit, Option.bind_some]
    dsimp only
    rw [← hm₁, hpages, hres]
    exact ⟨_, rfl, rfl, rfl⟩
  have hstatic : m.SameStatic m₃ :=
    ((hm₁ ▸ Vmm.InMemory.vmmUnmapIdentity_static m).trans hstatic₂).trans hstatic₃
  refine ⟨k₀, s₃, hboot, hmemory ▸ hm₃, ?_, ?_, hlive, fun v hv hge hlt => ?_⟩
  · rw [hmemory, hstatic.1]
    exact hready
  · rw [hmemory, hstatic.2, hnext]
    decide
  · have hne : ∀ k < 16, v ≠ kheapStart + (0#32 + BitVec.ofNat 32 k) * vmmPageSize := by
      rintro k hk rfl
      have hin := (kheapPages_inKheap k hk).1
      rw [BitVec.le_def, show kheapStart.toNat = 0xE0000000 from rfl] at hin
      omega
    rw [htrans₃ v hv fun k hk => by
      rw [page_succ]
      exact hne (k + 1) (Nat.succ_lt_succ hk), htrans₂ v hv, if_neg (page_zero kheapStart 0#32 ▸ hne 0 (by omega)),
      htrans v hv, if_neg]
    -- the direct map ends before the address
    rintro ⟨-, hbelow⟩
    unfold kernelVirtOffset at hbelow
    bv_omega

/-- A call of the page allocator with the sorted array as the registry. -/
theorem pagedCall_allocPages {k : PagedKernel σ SaState} {name : NamePtr} {count answer : U32}
    {m : PagedMemory σ} (h : Vmm.InMemory.vmmAllocPages P count k.memory = some (m, answer)) :
    ∃ k', InMemory.pagedCall P saOps name k (.call (.allocPages count)) = some (k', answer) ∧
      k'.memory = m ∧ k'.live = if answer = 0#32 then k.live else (answer, count) :: k.live := by
  obtain ⟨r, hr⟩ : ∃ r, InMemory.vmmAllocPagesRegistered P saOps name count k.memory k.registry =
      some ((m, r), answer) := by
    unfold InMemory.vmmAllocPagesRegistered vmaAdd
    rw [h, Option.bind_some]
    dsimp only
    split
    · split
      · exact ⟨_, rfl⟩
      · exact ⟨_, rfl⟩
    · exact ⟨_, rfl⟩
  refine ⟨_, congrArg (Option.map _) hr, rfl, rfl⟩

/-- **The first range**: its page is mapped to `0xFFD000`. -/
theorem GivesAbove.first (h : GivesAbove P kernelEnd q) {k : PagedKernel σ SaState} (name : NamePtr)
    (hk : k.memory.Follows s P AboveTable 0xC1000000#32 (P.after q 25) {768, 769, 770, 771, 896})
    (hready : k.memory.ready) (hnext : k.memory.nextVaddr = 0xC1000000#32) (hlive : k.live = [])
    (hnone : ∀ v, v.PageAligned → 0xC1000000 ≤ v.toNat → v.toNat < 0xE0000000 → s.translate v = none) :
    ∃ k' s', InMemory.pagedCall P saOps name k (.call (.allocPages 1#32)) = some (k', 0xC1000000#32) ∧
      k'.memory.Follows s' P AboveTable 0xC1000000#32 (P.after q 27) {768, 769, 770, 771, 772, 896} ∧
      k'.memory.ready ∧ k'.memory.nextVaddr = 0xC1001000#32 ∧ k'.live = [(0xC1000000#32, 1#32)] ∧
      s'.translate 0xC1000000#32 = some 0xFFD000#32 ∧
      ∀ v, v.PageAligned → 0xC1001000 ≤ v.toNat → v.toNat < 0xE0000000 → s'.translate v = none := by
  -- the frame of the page, then the one of its page table
  have hanswer := h.answers 25 (by omega)
  have htable := h.answers 26 (by omega)
  obtain ⟨m₁, s₁, hres₁, hm₁, hstatic₁, htrans₁⟩ := (hk.watermark 0xC1001000#32).mapFreshPage
    (v := 0xC1000000#32) (fun f hf => AboveTable.pointer hf) (by decide)
    (AboveTable.not_isPointer le_rfl) Prod.mk.eta.symm (by rw [hanswer]; decide)
    (r := P.after q 27) (.inr ⟨by decide, rfl, by
      show (P.allocPage (P.after q 26)).1 ≠ _
      rw [htable]
      decide, by
      show AboveTable (P.allocPage (P.after q 26)).1
      rw [htable]
      decide⟩)
  rw [show insert (pdIndex 0xC1000000#32).toNat ({768, 769, 770, 771, 896} : Finset ℕ) =
    {768, 769, 770, 771, 772, 896} by decide] at hm₁
  rw [hanswer] at htrans₁
  -- no check turns the call away
  have hpass : ¬ k.memory.Rejects 1#32 := by
    unfold PagedMemory.Rejects
    rw [hnext, hready]
    decide
  obtain ⟨k', hcall, hmemory, hlive'⟩ := pagedCall_allocPages
    (show Vmm.InMemory.vmmAllocPages P 1#32 k.memory = some (m₁, 0xC1000000#32) by
      rw [vmmAllocPages_passes_inMemory hpass, hnext]
      show ((Vmm.InMemory.mapFreshPage P 0xC1000000#32 { k.memory with nextVaddr := 0xC1001000#32 }).bind
        _).bind _ = _
      rw [hres₁]
      rfl)
  refine ⟨k', s₁, hcall, hmemory ▸ hm₁, ?_, ?_, ?_, ?_, fun v hv hge hlt => ?_⟩
  · rw [hmemory, hstatic₁.1]
    exact hready
  · rw [hmemory]
    exact hstatic₁.2
  · rw [hlive', hlive]
    rfl
  · rw [htrans₁ _ (by decide), if_pos rfl]
    rfl
  · rw [htrans₁ v hv, if_neg (by rintro rfl; exact absurd hge (by decide))]
    exact hnone v hv (by omega) hlt

/-- Two pages get the last two frames, and then there is none. -/
theorem GivesAbove.runsOut (h : GivesAbove P kernelEnd q)
    (hm : m.Follows s P AboveTable 0xC1000000#32 (P.after q 27) {768, 769, 770, 771, 772, 896}) :
    ∃ m' s', Vmm.InMemory.mapFreshPages P 0xC1001000#32 1023 0#32 m = some (m', false) ∧
      m'.Follows s' P AboveTable 0xC1000000#32 (P.after q 30) {768, 769, 770, 771, 772, 896} ∧
      m.SameStatic m' ∧ ∀ v, v.PageAligned → s'.translate v =
        if v = 0xC1002000#32 then some 0x1000000#32 else if v = 0xC1001000#32 then some 0xFFF000#32
        else s.translate v := by
  have hanswer := h.answers 27 (by omega)
  have hanswer' := h.answers 28 (by omega)
  have hanswer'' := h.answers 29 (by omega)
  obtain ⟨m₁, s₁, hres₁, hm₁, hstatic₁, htrans₁⟩ := hm.mapFreshPage
    (v := 0xC1001000#32) (fun f hf => AboveTable.pointer hf) (by decide)
    (AboveTable.not_isPointer (by decide)) (p := P.after q 28) (Prod.ext hanswer rfl) (by decide)
    (.inl ⟨by decide, rfl⟩)
  obtain ⟨m₂, s₂, hres₂, hm₂, hstatic₂, htrans₂⟩ := hm₁.mapFreshPage
    (v := 0xC1002000#32) (fun f hf => AboveTable.pointer hf) (by decide)
    (AboveTable.not_isPointer (by decide)) (p := P.after q 29) (Prod.ext hanswer' rfl) (by decide)
    (.inl ⟨by decide, rfl⟩)
  rw [show insert (pdIndex 0xC1002000#32).toNat (insert (pdIndex 0xC1001000#32).toNat
    ({768, 769, 770, 771, 772, 896} : Finset ℕ)) = {768, 769, 770, 771, 772, 896} by decide] at hm₂
  -- the third request fails
  obtain ⟨hfail, hm₃⟩ := hm₂.mapFreshPage_fails 0xC1003000#32 (p := P.after q 30) (Prod.ext hanswer'' rfl)
  refine ⟨_, _, ?_, hm₃, (hstatic₁.trans hstatic₂).trans ⟨rfl, rfl⟩, fun v hv => ?_⟩
  · show (Vmm.InMemory.mapFreshPage P 0xC1001000#32 _).bind _ = _
    rw [hres₁, Option.bind_some, if_pos rfl]
    show (Vmm.InMemory.mapFreshPage P 0xC1002000#32 m₁).bind _ = _
    rw [hres₂, Option.bind_some, if_pos rfl]
    show (Vmm.InMemory.mapFreshPage P 0xC1003000#32 m₂).bind _ = _
    rw [hfail, Option.bind_some]
    rfl
  · refine (htrans₂ v hv).trans ?_
    rw [htrans₁ v hv]
    rfl

/-- The two frames are given back, and the other pages of the range have none. -/
theorem GivesAbove.givesBack (h : GivesAbove P kernelEnd q)
    (hm : m.Follows s P AboveTable 0xC1000000#32 (P.after q 30) {768, 769, 770, 771, 772, 896})
    (hfirst : s.translate 0xC1001000#32 = some 0xFFF000#32)
    (hsecond : s.translate 0xC1002000#32 = some 0x1000000#32)
    (hnone : ∀ v, v.PageAligned → 0xC1003000 ≤ v.toNat → v.toNat < 0xE0000000 → s.translate v = none) :
    ∃ m' s', Vmm.InMemory.rollbackPages P 0xC1001000#32 1023 0#32 m = some m' ∧
      m'.Follows s' P AboveTable 0xC1000000#32
        (P.freePage 0x1000000#32 (P.freePage 0xFFF000#32 (P.after q 30))) {768, 769, 770, 771, 772, 896} ∧
      m.SameStatic m' ∧ s'.translate 0xC1000000#32 = s.translate 0xC1000000#32 := by
  have hanswer := h.answers 27 (by omega)
  have hanswer' := h.answers 28 (by omega)
  -- both frames are in use still
  have huse : P.InUse (P.after q 30) 0xFFF000#32 := by
    have hfresh := (P.lawful.fresh (P.after q 27) (by rw [hanswer]; decide)).2.2
    rw [hanswer] at hfresh
    exact P.lawful.mono _ _ (P.lawful.mono _ _ hfresh)
  have huse' : P.InUse (P.after q 30) 0x1000000#32 := by
    have hfresh := (P.lawful.fresh (P.after q 28) (by rw [hanswer']; decide)).2.2
    rw [hanswer'] at hfresh
    exact P.lawful.mono _ _ hfresh
  obtain ⟨m₁, s₁, hres₁, hm₁, hpmm₁, -, hstatic₁, htrans₁⟩ := hm.rollbackPage
    (fun f hf => AboveTable.pointer hf) (v := 0xC1001000#32) (f := 0xFFF000#32) (by decide)
    (AboveTable.not_isPointer (by decide)) hfirst (hm.tracks.pmm.symm ▸ huse)
    fun ht => absurd (hm.tracks.tables _ ht) (by decide)
  obtain ⟨m₂, s₂, hres₂, hm₂, -, -, hstatic₂, htrans₂⟩ := hm₁.rollbackPage
    (fun f hf => AboveTable.pointer hf) (v := 0xC1002000#32) (f := 0x1000000#32) (by decide)
    (AboveTable.not_isPointer (by decide))
    (by rw [htrans₁ _ (by decide), if_neg (by decide), hsecond])
    (by rw [hpmm₁, hm.tracks.pmm]; exact P.free_mono _ _ _ huse' huse (by decide))
    fun ht => absurd (hm₁.tracks.tables _ ht) (by decide)
  -- the other 1021 pages were never mapped
  have hrest : Vmm.InMemory.rollbackPages P 0xC1001000#32 1021 2#32 m₂ = some m₂ := by
    refine hm₂.rollbackPages_none 1021 fun n hn => ?_
    have hindex : 2#32 + BitVec.ofNat 32 n = 0#32 + BitVec.ofNat 32 (n + 2) := by
      rw [BitVec.zero_add, BitVec.ofNat_add, BitVec.add_comm]
    have hnat : (0xC1001000#32 + (0#32 + BitVec.ofNat 32 (n + 2)) * vmmPageSize).toNat =
        0xC1001000 + (n + 2) * 4096 := page_toNat (show n + 2 < 1023 by omega) (by decide)
    rw [← hindex] at hnat
    have hv := @page_aligned 0xC1001000#32 (by decide) (2#32 + BitVec.ofNat 32 n)
    obtain ⟨v, hveq⟩ : ∃ v, v = 0xC1001000#32 + (2#32 + BitVec.ofNat 32 n) * vmmPageSize := ⟨_, rfl⟩
    rw [← hveq] at hnat hv ⊢
    have hne : v ≠ 0xC1001000#32 ∧ v ≠ 0xC1002000#32 := by
      constructor <;>
      · intro heq
        rw [heq] at hnat
        simp only [BitVec.toNat_ofNat] at hnat
        omega
    rw [htrans₂ v hv, if_neg hne.2, htrans₁ v hv, if_neg hne.1]
    exact hnone v hv (by omega) (by omega)
  refine ⟨m₂, s₂, ?_, hm₂, hstatic₁.trans hstatic₂, ?_⟩
  · show (Vmm.InMemory.rollbackPage P 0xC1001000#32 _).bind _ = _
    rw [hres₁, Option.bind_some]
    show (Vmm.InMemory.rollbackPage P 0xC1002000#32 m₁).bind _ = _
    rw [hres₂, Option.bind_some]
    exact hrest
  · rw [htrans₂ _ (by decide), if_neg (by decide), htrans₁ _ (by decide), if_neg (by decide)]

/-- **A range that fails**: its first two pages get the last two frames, which are given back. -/
theorem GivesAbove.second (h : GivesAbove P kernelEnd q) {k : PagedKernel σ SaState} (name : NamePtr)
    (hk : k.memory.Follows s P AboveTable 0xC1000000#32 (P.after q 27) {768, 769, 770, 771, 772, 896})
    (hready : k.memory.ready) (hnext : k.memory.nextVaddr = 0xC1001000#32)
    (hnone : ∀ v, v.PageAligned → 0xC1001000 ≤ v.toNat → v.toNat < 0xE0000000 → s.translate v = none) :
    ∃ k' s', InMemory.pagedCall P saOps name k (.call (.allocPages 1023#32)) = some (k', 0#32) ∧
      k'.memory.Follows s' P AboveTable 0xC1000000#32
        (P.freePage 0x1000000#32 (P.freePage 0xFFF000#32 (P.after q 30))) {768, 769, 770, 771, 772, 896} ∧
      k'.memory.ready ∧ k'.memory.nextVaddr = 0xC1400000#32 ∧ k'.live = k.live ∧
      s'.translate 0xC1000000#32 = s.translate 0xC1000000#32 := by
  obtain ⟨m₁, s₁, hrun, hm₁, hstatic₁, htrans⟩ := h.runsOut (hk.watermark 0xC1400000#32)
  -- behind the two pages nothing is mapped
  have hbehind : ∀ v, v.PageAligned → 0xC1003000 ≤ v.toNat → v.toNat < 0xE0000000 →
      s₁.translate v = none := by
    intro v hv hge hlt
    have hne : v ≠ 0xC1002000#32 ∧ v ≠ 0xC1001000#32 := by
      constructor <;>
      · rintro rfl
        exact absurd hge (by decide)
    rw [htrans v hv, if_neg hne.1, if_neg hne.2]
    exact hnone v hv (by omega) hlt
  obtain ⟨m₂, s₂, hback, hm₂, hstatic₂, hsame⟩ := h.givesBack hm₁ (by rw [htrans _ (by decide)]; rfl)
    (by rw [htrans _ (by decide)]; rfl) hbehind
  have hpass : ¬ k.memory.Rejects 1023#32 := by
    unfold PagedMemory.Rejects
    rw [hnext, hready]
    decide
  obtain ⟨k', hcall, hmemory, hlive⟩ := pagedCall_allocPages
    (show Vmm.InMemory.vmmAllocPages P 1023#32 k.memory = some (m₂, 0#32) by
      rw [vmmAllocPages_passes_inMemory hpass, hnext]
      show (Vmm.InMemory.mapFreshPages P 0xC1001000#32 1023 0#32
        { k.memory with nextVaddr := 0xC1400000#32 }).bind _ = _
      rw [hrun, Option.bind_some, if_neg Bool.false_ne_true]
      exact congrArg (Option.map _) hback)
  have hstatic := hstatic₁.trans hstatic₂
  refine ⟨k', s₂, hcall, hmemory ▸ hm₂, ?_, ?_, hlive, ?_⟩
  · rw [hmemory, hstatic.1]
    exact hready
  · rw [hmemory]
    exact hstatic.2
  · rw [hsame, htrans _ (by decide), if_neg (by decide), if_neg (by decide)]
    rfl

/-- **A lost page**: its page table is in the frame above the direct map. -/
theorem GivesAbove.third (h : GivesAbove P kernelEnd q) {k : PagedKernel σ SaState} (name : NamePtr)
    (hk : k.memory.Follows s P AboveTable 0xC1000000#32
      (P.freePage 0x1000000#32 (P.freePage 0xFFF000#32 (P.after q 30))) {768, 769, 770, 771, 772, 896})
    (hready : k.memory.ready) (hnext : k.memory.nextVaddr = 0xC1400000#32)
    (hd : s.translate 0xC1000000#32 = some 0xFFD000#32) :
    ∃ k', InMemory.pagedCall P saOps name k (.call (.allocPages 1#32)) = some (k', 0xC1400000#32) ∧
      k'.live = (0xC1400000#32, 1#32) :: k.live ∧ k'.memory.tables.walk (pageOf 0xC1400000#32) = none := by
  have hanswer := h.again 0 (by omega)
  have hanswer' := h.again 1 (by omega)
  obtain ⟨m₁, hres₁, -, hwalk⟩ := (hk.watermark 0xC1401000#32).mapFreshPage_lost (v := 0xC1400000#32)
    (by decide) (by decide) (f := 0xFFF000#32) (Prod.ext hanswer rfl) (by decide)
    (g := 0x1000000#32) (Prod.ext hanswer' rfl) (by decide) rfl (by decide) hd (by decide) (by decide)
  have hpass : ¬ k.memory.Rejects 1#32 := by
    unfold PagedMemory.Rejects
    rw [hnext, hready]
    decide
  obtain ⟨k', hcall, hmemory, hlive⟩ := pagedCall_allocPages
    (show Vmm.InMemory.vmmAllocPages P 1#32 k.memory = some (m₁, 0xC1400000#32) by
      rw [vmmAllocPages_passes_inMemory hpass, hnext]
      show ((Vmm.InMemory.mapFreshPage P 0xC1400000#32 { k.memory with nextVaddr := 0xC1401000#32 }).bind
        _).bind _ = _
      rw [hres₁]
      rfl)
  exact ⟨k', hcall, hlive, hmemory ▸ hwalk⟩

end Above

/-! ### Every run -/

section Boot
variable {σ : Type*} {ρ : Type} {P : CountingPmm σ} {B : VmaOps ρ} {names : AreaNames} {name : NamePtr}
  {kernelEnd : U32} {frames : BitVec 20 → BitVec 10 → BitVec 32} {pmm : σ} {backend : HeapBackend} {state : ρ}
  {D : U32 → Prop} {base : ℕ} {k k₀ : PagedKernel σ ρ} {p p₀ : RegisteredState σ ρ}

/-- What conservation over separate tables says about the memory. -/
theorem PagedKernel.Refines.conserved (h : k.Refines p P.toLawfulPmm D base) (h₀ : k₀.Implements p₀)
    (hc : FramesConserved P p₀.kernel.vmm ⟨p.kernel.vmm, p.live⟩) : PagedKernel.Conserved P k₀ k := by
  have hk := h.implements
  have hfinds : ∀ v f, v.PageAligned → (k.memory.Finds v f ↔ vmmGetPhysical v p.kernel.vmm = some f) := by
    intro v f hv
    rw [h.grounded.finds_iff hk.memory hv, vmmGetPhysical_eq, if_pos ⟨h.grounded.anchored.ready, hv⟩]
  refine ⟨hk.live ▸ hc.disjoint, fun r hr v hv => ?_, fun r hr r' hr' v w f hv hw hvf hwf => ?_, ?_⟩
  · obtain ⟨f, hf, huse, htable⟩ := hc.mapped r (hk.live ▸ hr) v hv
    refine ⟨f, (hfinds v f hv.1).mpr hf, hk.memory.pmm ▸ huse, ?_⟩
    rw [hk.memory.isTable_iff]
    exact htable
  · refine hc.distinct r (hk.live ▸ hr) r' (hk.live ▸ hr') v w hv hw ?_
    rw [(hfinds v f hv.1).mp hvf, (hfinds w f hw.1).mp hwf]
  · rw [hk.tableCount, h₀.tableCount, hk.memory.pmm, h₀.memory.pmm, hk.live]
    exact hc.total

/-- A range that is given back over separate tables is given back in the memory. -/
theorem PagedKernel.Refines.freesOnce (h : k.Refines p P.toLawfulPmm D base) {v count : U32}
    (hmem : (v, count) ∈ p.kernel.pages) (hfree : Kernel.FreesOnce P p.kernel.vmm v count) :
    ∃ m' frames, k.FreesOnce P m' v count frames := by
  have hk := h.implements
  have hg := h.grounded
  obtain ⟨hbase, hend⟩ : base ≤ v.toNat ∧ v.toNat + count.toNat * 4096 ≤ 2 ^ 32 := by
    rcases h.above with ⟨-, hnil⟩ | ⟨-, hranges⟩
    · rw [hnil] at hmem
      exact absurd hmem List.not_mem_nil
    · exact hranges _ hmem
  obtain ⟨m', hres, hm', hg'⟩ := hg.freePages hk.memory hbase hend
  -- the same loop with the list of the frames
  obtain ⟨m'', hres', hm'', -⟩ := (hg.recorded []).freePages (hk.memory.recorded []) hbase hend
  obtain ⟨frames, hnodup, hlen, hframes, huse, hlog⟩ := hfree.once
  refine ⟨m', frames, hres, fun w hw => ?_, hnodup, hlen, fun f => ?_, fun f => ?_, ?_⟩
  · have hzero := hfree.unmapped w hw
    rw [vmmIsMapped_eq, if_pos ⟨hg'.anchored.ready, hw.1⟩] at hzero
    rw [hg'.unmapped_iff hm' hw.1]
    by_contra hne
    rw [if_pos (Option.isSome_iff_ne_none.mpr hne)] at hzero
    exact absurd hzero (by decide)
  · rw [hframes f]
    refine exists_congr fun w => and_congr_right fun hw => ?_
    rw [hg.finds_iff hk.memory hw.1, vmmGetPhysical_eq, if_pos ⟨hg.anchored.ready, hw.1⟩]
  · rw [hm'.pmm, hk.memory.pmm]
    exact huse f
  · rw [hres', Option.map_some, hm''.pmm, hm'.pmm, hlog]

/-- **The account of a run**: page frames are conserved, whichever live range is given back next, each of its
frames is freed once, and the next request returns. -/
structure PagedKernel.PagesAccounted (P : CountingPmm σ) (k₀ k : PagedKernel σ ρ) : Prop where
  conserved : PagedKernel.Conserved P k₀ k
  freesOnce : ∀ r ∈ k.live, ∃ m' frames, k.FreesOnce P m' r.1 r.2 frames
  returns : ∀ count, k.PageRoom (.call (.allocPages count)) →
    ∃ m' q, Vmm.InMemory.vmmAllocPages P.toLawfulPmm count k.memory = some (m', q)

/-- No request passes the checks in front of the heap window. -/
def PagedKernel.Idle (k : PagedKernel σ ρ) : Prop :=
  ¬ k.memory.ready ∨ k.memory.nextVaddr = 0#32 ∨ kheapStart.toNat < k.memory.nextVaddr.toNat

/-- In an idle kernel every request that the run allows is turned away. -/
theorem PagedKernel.Idle.rejects (h : k.Idle) {count : U32}
    (hroom : k.PageRoom (.call (.allocPages count))) : k.memory.Rejects count := by
  rcases h with hready | hzero | hlt
  · exact .inr (.inl hready)
  · exact .inr (.inr (.inl hzero))
  · refine Or.resolve_right hroom fun hle => ?_
    omega

/-- **Then nothing happens** but the writes. -/
theorem kernelMachine_idle (hidle : k₀.Idle) (hlive : k₀.live = [])
    (hk : (InMemory.kernelMachine P.toLawfulPmm B name k₀).ReachableVia PagedKernel.PageRoom k) :
    k.Idle ∧ k.live = [] ∧ k.memory.pd = k₀.memory.pd ∧ k.memory.pmm = k₀.memory.pmm := by
  induction hk with
  | init => exact ⟨hidle, hlive, rfl, rfl⟩
  | @step k k' call answer _ hroom hres ih =>
    obtain ⟨hidle, hlive, hpd, hpmm⟩ := ih
    cases call with
    | write v x =>
      obtain ⟨m, hm, hr⟩ := Option.map_eq_some_iff.mp hres
      obtain ⟨rfl, -⟩ := Prod.mk.inj hr
      obtain ⟨f, -, rfl⟩ := Option.map_eq_some_iff.mp hm
      exact ⟨hidle, hlive, hpd, hpmm⟩
    | call call =>
      replace hres : InMemory.kernelCall P.toLawfulPmm B name k call = some (k', answer) := hres
      cases call with
      | kmalloc size => exact hroom.elim
      | kfree ptr => exact hroom.elim
      | freePages vaddr count =>
        have hmem : (vaddr, count) ∈ k.live := hroom
        rw [hlive] at hmem
        exact absurd hmem List.not_mem_nil
      | allocPages count =>
        obtain ⟨r, hr, hrest⟩ := Option.map_eq_some_iff.mp hres
        unfold InMemory.vmmAllocPagesRegistered at hr
        rw [vmmAllocPages_rejects_inMemory (hidle.rejects hroom), Option.bind_some, if_neg (by simp)] at hr
        obtain rfl := Option.some.inj hr
        obtain ⟨rfl, -⟩ := Prod.mk.inj hrest
        exact ⟨hidle, hlive, hpd, hpmm⟩

/-- When requests in front of the heap window are possible, the direct map ends in front of it too. -/
theorem kernelBoot_mapEnd (hlow : ∀ f, ¬ P.InUse pmm f → f < vmmMapEnd P.toPmmOps kernelEnd pmm)
    (hboot : InMemory.kernelBoot P.toLawfulPmm B names kernelEnd frames pmm backend state = some k₀)
    (hidle : ¬ k₀.Idle) : (vmmMapEnd P.toPmmOps kernelEnd pmm).toNat ≤ 2 ^ 29 := by
  obtain ⟨-, hmax⟩ := vmmMapEnd_spec P.toPmmOps kernelEnd pmm
  obtain ⟨t, hinit, -, -, hmark, -⟩ := vmmInit_boot P.lawful kernelEnd (frameTable frames) pmm
  obtain ⟨m, hinit', hm⟩ := (@vmmInit_inMemory _ _ _ False) hlow hinit
  obtain ⟨⟨hready, hnext⟩, -⟩ := kernelBoot_static hboot hinit'
  unfold PagedKernel.Idle at hidle
  rw [hready, hnext, hm.ready, hm.nextVaddr] at hidle
  simp only [not_or, not_not, Nat.not_lt] at hidle
  obtain ⟨ht, hne, hle⟩ := hidle
  rcases watermark_cases hmax (hmark ht).2 with hzero | ⟨-, hge⟩
  · exact absurd hzero hne
  · rw [show kernelVirtOffset.toNat = 0xC0000000 from rfl] at hge
    rw [show kheapStart.toNat = 0xE0000000 from rfl] at hle
    omega

/-- **A run without requests** keeps the account. -/
theorem PagedKernel.Idle.pagesAccounted (hidle : k₀.Idle) (hlive : k₀.live = [])
    (hk : (InMemory.kernelMachine P.toLawfulPmm B name k₀).ReachableVia PagedKernel.PageRoom k) :
    PagedKernel.PagesAccounted P k₀ k := by
  obtain ⟨hidle', hlive', hpd, hpmm⟩ := kernelMachine_idle hidle hlive hk
  refine ⟨⟨?_, ?_, ?_, ?_⟩, ?_, fun count hroom =>
    ⟨_, _, vmmAllocPages_rejects_inMemory (hidle'.rejects hroom)⟩⟩
  · rw [hlive']
    exact .nil
  · simp [hlive']
  · simp [hlive']
  · rw [hlive', hpmm, show k.tableCount = k₀.tableCount by unfold PagedKernel.tableCount; rw [hpd]]
    rfl
  · simp [hlive']

/-- **A run behind the direct map** keeps it, as over separate tables. -/
theorem PagedKernel.Refines.pagesAccounted (hboot₀ : kernelBootRegistered P.toLawfulPmm B names kernelEnd
      (frameTable frames) pmm backend state = some p₀) (h₀ : k₀.Refines p₀ P.toLawfulPmm D base)
    (hlive : k₀.live = [])
    (hk : (InMemory.kernelMachine P.toLawfulPmm B name k₀).ReachableVia PagedKernel.PageRoom k) :
    PagedKernel.PagesAccounted P k₀ k := by
  obtain ⟨p, hp, h⟩ := (@PagedKernel.reachable_refines _ _ _ _ _ _ _ _ _ _ _
    RegisteredState.PageRoom)
    (fun _ _ hcall => hcall.inRoom) (fun _ _ _ hk hcall => hcall.registered hk) h₀ hk
  obtain ⟨hreach, hpages⟩ := registeredMachine_pages (h₀.implements.live.symm.trans hlive) hp
  obtain ⟨hconserved, hfree⟩ := pageMachine_conserved (kernelBootRegistered_kernel hboot₀) hreach
  refine ⟨h.conserved h₀.implements hconserved, fun r hr => ?_, fun count hroom => ?_⟩
  · have hr' : r ∈ p.live := h.implements.live ▸ hr
    exact h.freesOnce (hpages r hr') (hfree r hr')
  · obtain ⟨m', hres, -⟩ := h.grounded.allocPages h.implements.memory
      (h.above.range (h.implements.inRoom_iff.mp hroom.inRoom))
    exact ⟨m', _, hres⟩

/-- Either way. -/
theorem kernelMachine_accounted (hlow : ∀ f, ¬ P.InUse pmm f → f < vmmMapEnd P.toPmmOps kernelEnd pmm)
    (hboot : InMemory.kernelBoot P.toLawfulPmm B names kernelEnd frames pmm backend state = some k₀)
    (hk : (InMemory.kernelMachine P.toLawfulPmm B name k₀).ReachableVia PagedKernel.PageRoom k) :
    PagedKernel.PagesAccounted P k₀ k := by
  have hlive : k₀.live = [] := by
    obtain ⟨t, hinit, -⟩ := vmmInit_boot P.lawful kernelEnd (frameTable frames) pmm
    obtain ⟨m, hinit', -⟩ := (@vmmInit_inMemory _ _ _ False) hlow hinit
    exact (kernelBoot_static hboot hinit').2.2
  by_cases hidle : k₀.Idle
  · exact hidle.pagesAccounted hlive hk
  have hmax := kernelBoot_mapEnd hlow hboot hidle
  have hready : k₀.memory.ready := by
    by_contra hnot
    exact hidle (.inl hnot)
  obtain ⟨p₀, hboot₀, h₀⟩ := kernelBoot_refines (P := P.toLawfulPmm) (fun f hf => .of_lt hmax (hlow f hf))
    hboot hready
  exact h₀.pagesAccounted hboot₀ hlive hk

/-- **Page frames are conserved** in every run of `vmm_alloc_pages`, of `vmm_free_pages` of live ranges and of
writes that do not go through the pointers to page tables, when the frames that the physical allocator gives
are below the end of the direct map and the requests that pass the checks end in front of the heap window:
the live ranges share no page and no frame, the sum of free frames, live pages and page tables is the one of
the start, whichever live range is given back next, each of its frames is freed once, and the next request
returns. -/
theorem pages_conserved (hlow : ∀ f, ¬ P.InUse pmm f → f < vmmMapEnd P.toPmmOps kernelEnd pmm)
    (hboot : InMemory.kernelBoot P.toLawfulPmm B names kernelEnd frames pmm backend state = some k₀)
    (hk : (InMemory.kernelMachine P.toLawfulPmm B name k₀).ReachableVia PagedKernel.PageRoom k) :
    PagedKernel.Conserved P k₀ k ∧ (∀ r ∈ k.live, ∃ m' frames, k.FreesOnce P m' r.1 r.2 frames) ∧
      ∀ count, k.PageRoom (.call (.allocPages count)) →
        ∃ m' q, Vmm.InMemory.vmmAllocPages P.toLawfulPmm count k.memory = some (m', q) := by
  obtain ⟨hconserved, hfree, hreturns⟩ := kernelMachine_accounted hlow hboot hk
  exact ⟨hconserved, hfree, hreturns⟩

/-- After a write into the heap and a `vmm_alloc_pages`. -/
theorem pages_conserved_afterAlloc :
    ∃ (k₀ k₁ k₂ : PagedKernel FreeFrames SaState) (m' : PagedMemory FreeFrames) (frames : List U32),
      InMemory.kernelBoot (freeListPmm 0x1F00#32 0x100000#32) saOps sampleNames 0x200000#32
        (fun _ _ => 0#32) sampleFrames zeroBackend ⟨fun _ => .zero, 0⟩ = some k₀ ∧
      InMemory.pagedCall (freeListPmm 0x1F00#32 0x100000#32) saOps sampleNames.vmmAlloc k₀
        (.write 0xE0000010#32 7#32) = some (k₁, 0#32) ∧
      InMemory.pagedCall (freeListPmm 0x1F00#32 0x100000#32) saOps sampleNames.vmmAlloc k₁
        (.call (.allocPages 1#32)) = some (k₂, 0xC2000000#32) ∧
      k₂.live = [(0xC2000000#32, 1#32)] ∧
      PagedKernel.Conserved (freeListAccounts 0x1F00#32 0x100000#32) k₀ k₂ ∧
      k₂.FreesOnce (freeListAccounts 0x1F00#32 0x100000#32) m' 0xC2000000#32 1#32 frames := by
  obtain ⟨k₀, p₀, hboot, -, h₀, -⟩ := kernelBoot_sample
  obtain ⟨hwrite, k₁, hcall₁, h₁⟩ := h₀.write
  obtain ⟨-, k₂, hcall₂, hlive⟩ := h₁.allocPages
  have hroom₁ : k₀.PageRoom (.write 0xE0000010#32 7#32) := hwrite
  have hroom₂ : k₁.PageRoom (.call (.allocPages 1#32)) := by
    refine .inr ?_
    rw [h₁.refines.implements.memory.nextVaddr, h₁.nextVaddr]
    decide
  have hrun : (InMemory.kernelMachine (freeListPmm 0x1F00#32 0x100000#32) saOps sampleNames.vmmAlloc
      k₀).ReachableVia PagedKernel.PageRoom k₂ := .step (.step .init hroom₁ hcall₁) hroom₂ hcall₂
  obtain ⟨hconserved, hfree, -⟩ := pages_conserved (P := freeListAccounts 0x1F00#32 0x100000#32)
    (fun f hf => (sampleFrames_direct 0x1F00#32 (by decide) f hf).1) hboot hrun
  obtain ⟨m', frames, hm⟩ := hfree (0xC2000000#32, 1#32) (hlive ▸ List.mem_singleton_self _)
  exact ⟨k₀, k₁, k₂, m', frames, hboot, hcall₁, hcall₂, hlive, hconserved, hm⟩

/-- **With a frame at the end of the direct map** a page is lost: `vmm_alloc_pages(1)` returns `0xC1000000`,
`vmm_alloc_pages(1023)` fails, and `vmm_alloc_pages(1)` returns `0xC1400000`, whose page table is in the frame
`0x1000000`. The pointer to that frame is `0xC1000000`: the first range is cleared and gets the entry, and the
processor finds nothing at `0xC1400000`. -/
theorem pages_conserved_lost :
    ∃ (p : BitmapPmm) (h : (PmmState.bitmap p).InZone (.bitmap p))
      (k₀ k : PagedKernel (PmmIn (.bitmap p)) SaState),
      pmmBitmapInit (fun _ => 0#8) aboveMap lowKernel lowInfo = some p ∧
      InMemory.kernelBoot (pmmBackend (.bitmap p)) saOps sampleNames lowKernel.stop (fun _ _ => 0#32)
        ⟨.bitmap p, h⟩ zeroBackend ⟨fun _ => .zero, 0⟩ = some k₀ ∧
      (InMemory.kernelMachine (pmmBackend (.bitmap p)) saOps sampleNames.vmmAlloc k₀).ReachableVia
        PagedKernel.PageRoom k ∧
      k.live = [(0xC1400000#32, 1#32), (0xC1000000#32, 1#32)] ∧
      k.memory.tables.walk (pageOf 0xC1400000#32) = none ∧
      ¬ PagedKernel.Conserved (pmmAccounts (.bitmap p)) k₀ k := by
  obtain ⟨p, hinit, -⟩ := pmmBitmapInit_regions (fun _ => 0#8) aboveMap lowKernel lowInfo
  obtain ⟨hzone, h⟩ := aboveMap_gives hinit
  obtain ⟨k₀, s₀, hboot, hk₀, hready₀, hnext₀, hlive₀, hnone₀⟩ := h.boot sampleNames zeroBackend
    ⟨fun _ => .zero, 0⟩
  obtain ⟨k₁, s₁, hcall₁, hk₁, hready₁, hnext₁, hlive₁, hd₁, hnone₁⟩ := h.first sampleNames.vmmAlloc hk₀
    hready₀ hnext₀ hlive₀ hnone₀
  obtain ⟨k₂, s₂, hcall₂, hk₂, hready₂, hnext₂, hlive₂, hd₂⟩ := h.second sampleNames.vmmAlloc hk₁ hready₁
    hnext₁ hnone₁
  obtain ⟨k₃, hcall₃, hlive₃, hwalk⟩ := h.third sampleNames.vmmAlloc hk₂ hready₂ hnext₂ (hd₂.trans hd₁)
  have hroom₁ : k₀.PageRoom (.call (.allocPages 1#32)) := .inr (by rw [hnext₀]; decide)
  have hroom₂ : k₁.PageRoom (.call (.allocPages 1023#32)) := .inr (by rw [hnext₁]; decide)
  have hroom₃ : k₂.PageRoom (.call (.allocPages 1#32)) := .inr (by rw [hnext₂]; decide)
  rw [hlive₂, hlive₁] at hlive₃
  refine ⟨p, hzone, k₀, k₃, hinit, hboot, .step (.step (.step .init hroom₁ hcall₁) hroom₂ hcall₂) hroom₃ hcall₃,
    hlive₃, hwalk, fun hconserved => ?_⟩
  obtain ⟨f, ⟨-, hfound⟩, -⟩ := hconserved.mapped (0xC1400000#32, 1#32) (by rw [hlive₃]; simp) 0xC1400000#32
    (by unfold PagesOf; decide)
  rw [hwalk] at hfound
  exact absurd hfound (by simp)

/-- **Both backends**: the same when their pages lie below the end of the direct map. -/
theorem pmm_pagesAccounted {Z : PmmZone} {q : PmmIn Z} {k k₀ : PagedKernel (PmmIn Z) ρ}
    (hZ : Z ≠ .buddy none) (hlow : ∀ f, Z.HasPage f → f < vmmMapEnd (pmmBackend Z).toPmmOps kernelEnd q)
    (hboot : InMemory.kernelBoot (pmmBackend Z) B names kernelEnd frames q backend state = some k₀)
    (hk : (InMemory.kernelMachine (pmmBackend Z) B name k₀).ReachableVia PagedKernel.PageRoom k) :
    PagedKernel.PagesAccounted (pmmAccounts Z) k₀ k :=
  kernelMachine_accounted (P := pmmAccounts Z) (fun f hf => hlow f (PmmIn.hasPage_of_free q hZ hf)) hboot hk

end Boot

end Microkernel.Kernel
