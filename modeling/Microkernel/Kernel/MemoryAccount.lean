import Microkernel.Kernel.FrameConservation
import Microkernel.Kernel.HeapPages
import Microkernel.Vmm.KernelPages

/-! # All of the kernel's memory

What the processor finds in the tables when the kernel has started and has called `kmalloc`, `kfree`,
`vmm_alloc_pages` and `vmm_free_pages`: the direct map, the pages of the heap and the live ranges, each
page of the last two with a frame of its own. Ranges that were given back are not found any more.

* **`DirectOnly`** — before the heap starts there is nothing but the direct map.
* **`RegisteredState.MemoryAccount`** — the account: every mapped page is in exactly one of the three
  parts, and each frame is under one page.
* **`MemoryAccounted`** — what this says of an access by the processor: it reaches memory exactly when its
  page is held.
* **`registeredMachine_accounted`** — the account balances in every run.
-/

namespace Microkernel.Kernel

open Heap Vma Vmm
open Paging (pageOf Access)

/-! ### Before the heap -/

/-- **The memory before the heap**: the direct map, which ends in front of the heap window, and nothing
else. -/
structure DirectOnly {σ : Type*} (P : LawfulPmm σ) (mapEnd : U32) (s : VmmState σ) : Prop where
  wellFormed : s.WellFormed P.InUse
  ready : s.ready
  kernelOnly : s.KernelOnly
  translate : ∀ v, v.PageAligned → s.translate v =
    if kernelVirtOffset ≤ v ∧ v - kernelVirtOffset < mapEnd then some (v - kernelVirtOffset) else none
  mapEnd_le : mapEnd.toNat ≤ 2 ^ 29
  aligned : s.nextVaddr.PageAligned
  watermark : 0xC0000000 + mapEnd.toNat ≤ s.nextVaddr.toNat

section Start
variable {σ : Type*} {P : LawfulPmm σ} {mapEnd : U32} {s : VmmState σ}

/-- Neither the pages from the watermark on nor those of the heap are mapped. -/
theorem DirectOnly.none (h : DirectOnly P mapEnd s) {v : U32} (hv : v.PageAligned)
    (hout : s.nextVaddr.toNat ≤ v.toNat ∨ HeapMaps v) : s.translate v = none := by
  have hoff : kernelVirtOffset.toNat = 0xC0000000 := rfl
  have hmap := h.mapEnd_le
  have hmark := h.watermark
  rw [h.translate v hv, if_neg]
  rintro ⟨hge, hlt⟩
  rw [BitVec.lt_def, BitVec.toNat_sub_of_le hge, hoff] at hlt
  rw [BitVec.le_def, hoff] at hge
  rcases hout with hout | ⟨hin, -⟩ | hlow
  · omega
  · rw [BitVec.le_def, show kheapStart.toNat = 0xE0000000 from rfl] at hin
    omega
  · omega

/-- **`vmm_init` and `vmm_unmap_identity`** leave the direct map. -/
theorem vmmInit_directOnly {kernelEnd : U32} {table : U32 → U32 → U32} {pmm : σ}
    (hfits : FitsBelowHeap P kernelEnd pmm)
    (hinit : vmmInit P.toPmmOps kernelEnd (vmmStatic table pmm) = some s) (hready : s.ready) :
    DirectOnly P (vmmMapEnd P.toPmmOps kernelEnd pmm) (vmmUnmapIdentity s) := by
  obtain ⟨s', hinit', hwf, -, hboot, -⟩ := vmmInit_boot P.lawful kernelEnd table pmm
  obtain rfl := Option.some.inj (hinit.symm.trans hinit')
  obtain ⟨hwf', hready', -⟩ := vmmUnmapIdentity_spec hwf
  have hmax := hfits.mapEnd_le
  have hmark := watermark_toNat (hboot hready).2
  have hstatic := (vmmUnmapIdentity_rest s).2.2.1
  refine ⟨hwf', hready'.trans hready, (vmmInit_kernelOnly P.lawful hinit).unmapIdentity,
    fun v hv => vmmInit_directMap P.lawful hinit hready hv, hmax, ?_, ?_⟩
  · rw [hstatic, U32.pageAligned_iff]
    omega
  · rw [hstatic]
    omega

end Start

/-! ### The registry aside -/

section Registry
variable {σ : Type*} {ρ : Type} {P : LawfulPmm σ} {B : VmaOps ρ} {name : NamePtr}

/-- `vmm_alloc_pages` answers as without the registry. -/
theorem vmmAllocPagesRegistered_eq {count : U32} {s s' : VmmState σ} {r r' : VmaRegistry ρ} {p : U32}
    (h : vmmAllocPagesRegistered P B name count s r = some ((s', r'), p)) :
    vmmAllocPages P count s = (s', p) := by
  unfold vmmAllocPagesRegistered at h
  dsimp only at h
  split at h
  · obtain ⟨a, -, ha⟩ := Option.map_eq_some_iff.mp h
    obtain ⟨hs, rfl⟩ := Prod.mk.inj ha
    obtain ⟨rfl, -⟩ := Prod.mk.inj hs
    rfl
  · obtain ⟨hs, rfl⟩ := Prod.mk.inj (Option.some.inj h)
    obtain ⟨rfl, -⟩ := Prod.mk.inj hs
    rfl

/-- `vmm_free_pages` does to the tables what it does without the registry. -/
theorem vmmFreePagesRegistered_eq {p count : U32} {s s' : VmmState σ} {r r' : VmaRegistry ρ}
    (h : vmmFreePagesRegistered P B p count s r = some (s', r')) :
    s' = vmmFreePages P p count s := by
  unfold vmmFreePagesRegistered at h
  split at h
  · rename_i hguard
    obtain ⟨rfl, -⟩ := Prod.mk.inj (Option.some.inj h)
    unfold vmmFreePages
    rw [if_pos hguard]
  · split at h
    · obtain ⟨a, -, ha⟩ := Option.map_eq_some_iff.mp h
      exact (Prod.mk.inj ha).1.symm
    · exact (Prod.mk.inj (Option.some.inj h)).1.symm

end Registry

/-! ### The account -/

section Account
variable {σ : Type*} {ρ : Type} {P : CountingPmm σ} {B : VmaOps ρ} {s₀ : VmmState σ} {mapEnd : U32}
  {k k' : RegisteredState σ ρ} {V : Finset U32} {name : NamePtr} {answer : U32}

/-- **The account of the kernel's memory**: the pages mapped since the start `s₀`, `V`, are those of the
heap and of the live ranges; the results of `vmm_alloc_pages` have no page in common and lie between the
first watermark and the present one. -/
structure RegisteredState.MemoryAccount (P : CountingPmm σ) (s₀ : VmmState σ) (k : RegisteredState σ ρ)
    (V : Finset U32) : Prop where
  account : VmmState.Account P s₀ k.kernel.vmm V
  kernelOnly : k.kernel.vmm.KernelOnly
  pages : ∀ v, v ∈ V ↔ k.Mapped v
  total : V.card = k.heapPages.length + pageTotal k.live
  heap : k.kernel.heap.Sound
  owns : k.kernel.heap.Owns k.heapPages
  heapMaps : ∀ v ∈ k.heapPages, HeapMaps v
  live : ∀ r ∈ k.live, r ∈ k.kernel.pages
  nodup : k.live.Nodup
  disjoint : k.kernel.pages.Pairwise fun r r' => ∀ v, PagesOf r.1 r.2 v → ¬ PagesOf r'.1 r'.2 v
  results : ∀ r ∈ k.kernel.pages, r.1.PageAligned ∧ r.1 ≠ 0#32 ∧ r.2 ≠ 0#32 ∧
    s₀.nextVaddr.toNat ≤ r.1.toNat ∧ r.1.toNat + r.2.toNat * 4096 ≤ k.kernel.vmm.nextVaddr.toNat ∧
    ∀ v, PagesOf r.1 r.2 v → ¬ InKheap v
  watermark : s₀.nextVaddr.toNat ≤ k.kernel.vmm.nextVaddr.toNat
  aligned : k.kernel.vmm.nextVaddr.PageAligned

/-- A page of a result is none of the heap's. -/
theorem RegisteredState.MemoryAccount.notMem_heapPages (h : k.MemoryAccount P s₀ V)
    (h₀ : DirectOnly P.toLawfulPmm mapEnd s₀) {v : U32} (hge : s₀.nextVaddr.toNat ≤ v.toNat)
    (hout : ¬ InKheap v) : v ∉ k.heapPages := by
  intro hmem
  have hmark := h₀.watermark
  rcases h.heapMaps v hmem with hin | hlow
  · exact hout hin
  · omega

/-- **`vmm_alloc_pages`** with room keeps the account. -/
theorem RegisteredState.MemoryAccount.alloc (h : k.MemoryAccount P s₀ V)
    (h₀ : DirectOnly P.toLawfulPmm mapEnd s₀) {count : U32} (hroom : InRoom k.kernel (.allocPages count))
    (hres : registeredCall P.toLawfulPmm B name k (.allocPages count) = some (k', answer)) :
    ∃ V', k'.MemoryAccount P s₀ V' := by
  obtain ⟨⟨⟨s', registry'⟩, p⟩, hcall, hr⟩ := Option.map_eq_some_iff.mp hres
  obtain ⟨rfl, -⟩ := Prod.mk.inj hr
  have halloc := vmmAllocPagesRegistered_eq hcall
  have hkernel := h.kernelOnly.allocPages (P := P.toLawfulPmm) count
  rw [halloc] at hkernel
  by_cases hrej : k.kernel.vmm.Rejects count
  · rw [vmmAllocPages_rejects hrej] at halloc
    obtain ⟨rfl, rfl⟩ := Prod.mk.inj halloc
    exact ⟨V, h.account, h.kernelOnly, h.pages, h.total, h.heap, h.owns, h.heapMaps, h.live, h.nodup,
      h.disjoint, h.results, h.watermark, h.aligned⟩
  obtain ⟨hend, hW⟩ := (hroom.resolve_left hrej).outside
  have hmem : ∀ v, v ∈ pagesFrom k.kernel.vmm.nextVaddr 0 count.toNat ↔
      PagesOf k.kernel.vmm.nextVaddr count v := fun v => mem_pagesFrom_iff h.aligned hend.le
  -- the pages from the watermark on are none of the earlier ones
  have hnew : ∀ v, PagesOf k.kernel.vmm.nextVaddr count v → ∀ r ∈ k.kernel.pages,
      ¬ PagesOf r.1 r.2 v := by
    rintro v ⟨-, hge, -⟩ r hr ⟨-, -, hlt⟩
    have hle := (h.results r hr).2.2.2.2.1
    omega
  have hheap : ∀ v, PagesOf k.kernel.vmm.nextVaddr count v → v ∉ k.heapPages := fun v hv =>
    h.notMem_heapPages h₀ (h.watermark.trans hv.2.1) (hW v hv)
  have hfresh : ∀ v, PagesOf k.kernel.vmm.nextVaddr count v → v ∉ V := by
    intro v hv hin
    rcases (h.pages v).mp hin with hin | ⟨r, hr, hrv⟩
    · exact hheap v hv hin
    · exact hnew v hv r (h.live r hr) hrv
  obtain ⟨s₁, p₁, hres₁, -, hnext₁, hcase⟩ := vmmAllocPages_account h.account hrej (by omega)
    fun v hv => ⟨hfresh v ((hmem v).mp hv), fun halign => h₀.none halign
      (.inl (h.watermark.trans ((hmem v).mp hv).2.1))⟩
  obtain ⟨rfl, rfl⟩ := Prod.mk.inj (hres₁.symm.trans halloc)
  have haligned : s₁.nextVaddr.PageAligned := by
    have hbefore := (U32.pageAligned_iff _).mp h.aligned
    rw [U32.pageAligned_iff, hnext₁]
    omega
  have hwatermark : s₀.nextVaddr.toNat ≤ s₁.nextVaddr.toNat := by
    have hle := h.watermark
    omega
  have hresults : ∀ r ∈ k.kernel.pages, r.1.PageAligned ∧ r.1 ≠ 0#32 ∧ r.2 ≠ 0#32 ∧
      s₀.nextVaddr.toNat ≤ r.1.toNat ∧ r.1.toNat + r.2.toNat * 4096 ≤ s₁.nextVaddr.toNat ∧
      ∀ v, PagesOf r.1 r.2 v → ¬ InKheap v := by
    intro r hr
    obtain ⟨h₁, h₂, h₃, h₄, hle, h₅⟩ := h.results r hr
    exact ⟨h₁, h₂, h₃, h₄, by omega, h₅⟩
  rcases hcase with ⟨rfl, haccount⟩ | ⟨rfl, hne, haccount⟩
  · exact ⟨V, haccount, hkernel, h.pages, h.total, h.heap, h.owns, h.heapMaps, h.live, h.nodup,
      h.disjoint, hresults, hwatermark, haligned⟩
  have hcount : count ≠ 0#32 := fun hzero => hrej (.inl hzero)
  have hpos : 0 < count.toNat := by
    by_contra hnot
    exact hcount (BitVec.eq_of_toNat_eq (Nat.eq_zero_of_not_pos hnot))
  refine ⟨_, haccount, hkernel, fun v => ?_, ?_, h.heap, h.owns, h.heapMaps, fun r hr => ?_, ?_, ?_,
    fun r hr => ?_, hwatermark, haligned⟩
  · rw [Finset.mem_union, h.pages v, hmem v]
    unfold RegisteredState.Mapped
    simp only [if_neg hne]
    constructor
    · rintro ((hv | ⟨r, hr, hv⟩) | hv)
      exacts [.inl hv, .inr ⟨r, List.mem_cons_of_mem _ hr, hv⟩, .inr ⟨_, List.mem_cons_self, hv⟩]
    · rintro (hv | ⟨r, hr, hv⟩)
      · exact .inl (.inl hv)
      · rcases List.mem_cons.mp hr with rfl | hr
        exacts [.inr hv, .inl (.inr ⟨r, hr, hv⟩)]
  · have hdisjoint : Disjoint V (pagesFrom k.kernel.vmm.nextVaddr 0 count.toNat) :=
      Finset.disjoint_left.mpr fun v hv hin => hfresh v ((hmem v).mp hin) hv
    simp only [if_neg hne]
    rw [Finset.card_union_of_disjoint hdisjoint, h.total,
      card_pagesFrom (by rw [Nat.zero_add]; exact hend.le), pageTotal]
    show _ + _ + count.toNat = _ + (count.toNat + _)
    omega
  · simp only [if_neg hne] at hr ⊢
    rcases List.mem_cons.mp hr with rfl | hr
    exacts [List.mem_cons_self, List.mem_cons_of_mem _ (h.live r hr)]
  · simp only [if_neg hne]
    refine List.nodup_cons.mpr ⟨fun hin => ?_, h.nodup⟩
    have hle := (h.results _ (h.live _ hin)).2.2.2.2.1
    dsimp only at hle
    omega
  · simp only [if_neg hne]
    exact List.pairwise_cons.mpr ⟨fun r hr v hv => hnew v hv r hr, h.disjoint⟩
  · simp only [if_neg hne] at hr
    rcases List.mem_cons.mp hr with rfl | hr
    · exact ⟨h.aligned, hne, hcount, h.watermark, hnext₁.ge, hW⟩
    · exact hresults r hr

/-- A result has no page of another one. -/
theorem RegisteredState.MemoryAccount.separate (h : k.MemoryAccount P s₀ V) {r r' : U32 × U32}
    (hr : r ∈ k.kernel.pages) (hr' : r' ∈ k.kernel.pages) (hne : r ≠ r') {v : U32}
    (hv : PagesOf r.1 r.2 v) : ¬ PagesOf r'.1 r'.2 v := by
  have : Std.Symm fun r r' : U32 × U32 => ∀ v, PagesOf r.1 r.2 v → ¬ PagesOf r'.1 r'.2 v :=
    ⟨fun _ _ hd v hv hv' => hd v hv' hv⟩
  exact h.disjoint.forall hr hr' hne v hv

/-- **`vmm_free_pages`** of a result keeps the account, also when it was given back before. -/
theorem RegisteredState.MemoryAccount.free (h : k.MemoryAccount P s₀ V)
    (h₀ : DirectOnly P.toLawfulPmm mapEnd s₀) {p count : U32}
    (hres : registeredCall P.toLawfulPmm B name k (.freePages p count) = some (k', answer)) :
    ∃ V', k'.MemoryAccount P s₀ V' := by
  by_cases hheld : k.kernel.pages.contains (p, count)
  swap
  · simp only [registeredCall, if_neg hheld] at hres
    obtain ⟨rfl, -⟩ := Prod.mk.inj (Option.some.inj hres)
    exact ⟨V, h⟩
  have hmem := List.contains_iff_mem.mp hheld
  simp only [registeredCall, if_pos hheld] at hres
  obtain ⟨⟨s', registry'⟩, hcall, hr⟩ := Option.map_eq_some_iff.mp hres
  obtain ⟨rfl, -⟩ := Prod.mk.inj hr
  obtain rfl := vmmFreePagesRegistered_eq hcall
  have hkernel := h.kernelOnly.freePages (P := P.toLawfulPmm) p count
  have hnext := vmmFreePages_nextVaddr (P := P.toLawfulPmm) p count k.kernel.vmm
  obtain ⟨halign, hne, hzero, hstart, hend, hW⟩ := h.results _ hmem
  dsimp only at halign hne hzero hstart hend hW
  have hready : k.kernel.vmm.ready = true := h.account.ready.trans h₀.ready
  have hend' : p.toNat + count.toNat * 4096 ≤ 2 ^ 32 := hend.trans k.kernel.vmm.nextVaddr.isLt.le
  have hpage : ∀ v, v ∈ pagesFrom p 0 count.toNat ↔ PagesOf p count v :=
    fun v => mem_pagesFrom_iff halign hend'
  have hguard : ¬ (p = 0#32 ∨ count = 0#32 ∨ ¬ k.kernel.vmm.ready = true) := by simp [hne, hzero, hready]
  have hfree : vmmFreePages P.toLawfulPmm p count k.kernel.vmm =
      freeMappedPages P.toLawfulPmm p count.toNat 0#32 k.kernel.vmm := by
    unfold vmmFreePages
    rw [if_neg hguard]
  have hsub : ∀ r ∈ k.live.erase (p, count), r ∈ k.live ∧ r ≠ (p, count) := fun r hr =>
    ⟨List.mem_of_mem_erase hr, fun heq => (h.nodup.mem_erase_iff.mp hr).1 heq⟩
  -- what does not depend on whether the range is live
  obtain ⟨V', haccount, hpages, htotal⟩ : ∃ V', VmmState.Account P s₀
      (vmmFreePages P.toLawfulPmm p count k.kernel.vmm) V' ∧
      (∀ v, v ∈ V' ↔ v ∈ k.heapPages ∨ ∃ r ∈ k.live.erase (p, count), PagesOf r.1 r.2 v) ∧
      V'.card = k.heapPages.length + pageTotal (k.live.erase (p, count)) := by
    by_cases hlive : (p, count) ∈ k.live
    · have hin : pagesFrom p 0 count.toNat ⊆ V := fun v hv =>
        (h.pages v).mpr (.inr ⟨_, hlive, (hpage v).mp hv⟩)
      obtain ⟨s', frames, hloop, h', -⟩ := freeMappedPages_account count.toNat (j := 0) h.account h₀.ready
        (by rw [Nat.zero_add]; exact hend') hin
      refine ⟨_, by rw [hfree, show 0#32 = BitVec.ofNat 32 0 from rfl, hloop]; exact h', fun v => ?_, ?_⟩
      · rw [Finset.mem_sdiff, h.pages v, hpage v]
        constructor
        · rintro ⟨hv | ⟨r, hr, hv⟩, hnot⟩
          · exact .inl hv
          · refine .inr ⟨r, h.nodup.mem_erase_iff.mpr ⟨?_, hr⟩, hv⟩
            rintro rfl
            exact hnot hv
        · rintro (hv | ⟨r, hr, hv⟩)
          · exact ⟨.inl hv, fun hp => h.notMem_heapPages h₀ (hstart.trans hp.2.1) (hW v hp) hv⟩
          · obtain ⟨hr, hne⟩ := hsub r hr
            exact ⟨.inr ⟨r, hr, hv⟩, h.separate (h.live r hr) hmem hne hv⟩
      · have hsum := pageTotal_perm (List.perm_cons_erase hlive)
        rw [pageTotal] at hsum
        rw [Finset.card_sdiff_of_subset hin, h.total,
          card_pagesFrom (by rw [Nat.zero_add]; exact hend')]
        dsimp only at hsum
        omega
    · -- the range was given back before
      rw [List.erase_of_not_mem hlive]
      refine ⟨V, ?_, h.pages, h.total⟩
      rw [hfree]
      refine freeIdlePages_account (j := 0) count.toNat h.account fun v hv => ?_
      have hv := (hpage v).mp hv
      refine ⟨fun hin => ?_, fun hva => h₀.none hva (.inl (hstart.trans hv.2.1))⟩
      rcases (h.pages v).mp hin with hin | ⟨r, hr, hrv⟩
      · exact h.notMem_heapPages h₀ (hstart.trans hv.2.1) (hW v hv) hin
      · refine h.separate (h.live r hr) hmem ?_ hrv hv
        rintro rfl
        exact hlive hr
  exact ⟨V', haccount, hkernel, hpages, htotal, h.heap, h.owns, h.heapMaps,
    fun r hr => h.live r (hsub r hr).1, h.nodup.erase _, h.disjoint, fun r hr => hnext ▸ h.results r hr,
    hnext ▸ h.watermark, hnext ▸ h.aligned⟩

/-- **`kmalloc`** keeps the account: a page that it maps is the heap's. -/
theorem RegisteredState.MemoryAccount.kmalloc (h : k.MemoryAccount P s₀ V)
    (h₀ : DirectOnly P.toLawfulPmm mapEnd s₀) {size : U32}
    (hres : registeredCall P.toLawfulPmm B name k (.kmalloc size) = some (k', answer)) :
    ∃ V', k'.MemoryAccount P s₀ V' := by
  obtain ⟨r, hcall, hr⟩ := Option.map_eq_some_iff.mp hres
  obtain ⟨rfl, -⟩ := Prod.mk.inj hr
  obtain ⟨hheap, hpages, -⟩ := kmalloc_cases h.heap hcall
  obtain ⟨howns, hmaps⟩ := kmalloc_pages h.heap h.owns hcall
  obtain ⟨-, hnext⟩ := kmalloc_watermark hcall
  have hresults : ∀ q ∈ r.1.pages, _ := fun q hq => h.results q (hpages ▸ hq)
  rcases hmaps with ⟨hvmm, hnone⟩ | ⟨v, hv, hnew, hvmm, hrequest⟩
  · rw [hnone] at howns ⊢
    exact ⟨V, hvmm ▸ h.account, hvmm ▸ h.kernelOnly, h.pages, h.total, hheap, howns, h.heapMaps,
      fun q hq => hpages ▸ h.live q hq, h.nodup, hpages ▸ h.disjoint, fun q hq => hnext ▸ hresults q hq,
      hnext ▸ h.watermark, hnext ▸ h.aligned⟩
  -- the next page of the heap is in no live range
  have hlive : ∀ q ∈ k.live, ¬ PagesOf q.1 q.2 v := by
    intro q hq hqv
    obtain ⟨-, -, -, hstart, -, hW⟩ := h.results q (h.live q hq)
    have hmark := h₀.watermark
    have hge := hqv.2.1
    rcases hv with hin | hlow
    · exact hW v hqv hin
    · omega
  have hfresh : v ∉ V := by
    intro hin
    rcases (h.pages v).mp hin with hin | ⟨q, hq, hqv⟩
    · exact hnew hin
    · exact hlive q hq hqv
  obtain ⟨s', phys, ok, hmap, -, haccount⟩ := h.account.mapFresh (fun halign => h₀.none halign (.inr hv)) hfresh
  have hkernel := h.kernelOnly.mapFreshPage (P := P.toLawfulPmm) v
  rw [← hvmm] at hkernel
  rw [hmap] at hvmm hrequest
  rw [hrequest] at howns ⊢
  rw [← (show r.1.vmm = s' from hvmm)] at haccount
  cases ok with
  | false =>
    exact ⟨V, haccount, hkernel, h.pages, h.total, hheap, howns, h.heapMaps,
      fun q hq => hpages ▸ h.live q hq, h.nodup, hpages ▸ h.disjoint, fun q hq => hnext ▸ hresults q hq,
      hnext ▸ h.watermark, hnext ▸ h.aligned⟩
  | true =>
    refine ⟨insert v V, haccount, hkernel, fun w => ?_, ?_, hheap, howns, fun w hw => ?_,
      fun q hq => hpages ▸ h.live q hq, h.nodup, hpages ▸ h.disjoint, fun q hq => hnext ▸ hresults q hq,
      hnext ▸ h.watermark, hnext ▸ h.aligned⟩
    · rw [Finset.mem_insert, h.pages w]
      show w = v ∨ (w ∈ k.heapPages ∨ _) ↔ w ∈ v :: k.heapPages ∨ _
      rw [List.mem_cons, or_assoc]
    · rw [Finset.card_insert_of_notMem hfresh, h.total]
      show _ = (v :: k.heapPages).length + pageTotal k.live
      rw [List.length_cons]
      omega
    · rcases List.mem_cons.mp hw with rfl | hw
      exacts [hv, h.heapMaps w hw]

/-- **`kfree`** keeps the account. -/
theorem RegisteredState.MemoryAccount.kfree (h : k.MemoryAccount P s₀ V) {ptr : U32}
    (hres : registeredCall P.toLawfulPmm B name k (.kfree ptr) = some (k', answer)) :
    k'.MemoryAccount P s₀ V := by
  obtain ⟨r, hcall, hr⟩ := Option.map_eq_some_iff.mp hres
  obtain ⟨rfl, -⟩ := Prod.mk.inj hr
  obtain ⟨hheap, hpages, hvmm⟩ := kfree_cases h.heap hcall
  exact ⟨hvmm ▸ h.account, hvmm ▸ h.kernelOnly, h.pages, h.total, hheap, kfree_owns h.owns hcall,
    h.heapMaps, fun q hq => hpages ▸ h.live q hq, h.nodup, hpages ▸ h.disjoint,
    fun q hq => hvmm ▸ h.results q (hpages ▸ hq), hvmm ▸ h.watermark, hvmm ▸ h.aligned⟩

end Account

/-! ### From the start on -/

section Boot
variable {σ : Type*} {ρ : Type} {P : CountingPmm σ} {B : VmaOps ρ} {s₀ : VmmState σ} {mapEnd : U32}
  {V : Finset U32}

/-- The loop of `kmalloc_init` puts the pages that it maps into the account. -/
theorem mappedPages_account {start : U32} (n : ℕ) {j : ℕ} {s : VmmState σ}
    (h : VmmState.Account P s₀ s V) (hend : start.toNat + (j + n) * 4096 ≤ 2 ^ 32)
    (hpages : ∀ v ∈ pagesFrom start j n, v ∉ V ∧ (v.PageAligned → s₀.translate v = none)) :
    VmmState.Account P s₀ (mapFreshPages P.toLawfulPmm start n (BitVec.ofNat 32 j) s).1
        (V ∪ (mappedPages P.toLawfulPmm start n (BitVec.ofNat 32 j) s).toFinset) ∧
      (mappedPages P.toLawfulPmm start n (BitVec.ofNat 32 j) s).Nodup ∧
      ∀ v ∈ mappedPages P.toLawfulPmm start n (BitVec.ofNat 32 j) s, v ∈ pagesFrom start j n := by
  induction n generalizing j s V with
  | zero => exact ⟨by simpa [mappedPages, mapFreshPages] using h, List.nodup_nil, fun v hv => absurd hv List.not_mem_nil⟩
  | succ n ih =>
    have hnot := round_notMem hend
    rw [pagesFrom_succ] at hpages ⊢
    obtain ⟨hnew, hnone⟩ := hpages _ (Finset.mem_insert_self _ _)
    obtain ⟨s₁, phys, ok, hres, -, h₁⟩ := h.mapFresh hnone hnew
    unfold mapFreshPages mappedPages
    simp only [hres]
    cases ok with
    | false =>
      refine ⟨?_, List.nodup_nil, fun v hv => absurd hv List.not_mem_nil⟩
      simpa using h₁
    | true =>
      obtain ⟨h', hnodup, hsub⟩ := ih (j := j + 1) h₁
        (by rw [Nat.add_assoc, Nat.add_comm 1]; exact hend) fun v hv => by
        obtain ⟨hvV, hv₀⟩ := hpages v (Finset.mem_insert_of_mem hv)
        refine ⟨fun hmem => ?_, hv₀⟩
        rcases Finset.mem_insert.mp hmem with rfl | hmem
        exacts [hnot hv, hvV hmem]
      rw [if_pos rfl, if_pos rfl, ofNat_succ_round]
      refine ⟨?_, List.nodup_cons.mpr ⟨fun hin => hnot (hsub _ hin), hnodup⟩, fun v hv => ?_⟩
      · rw [List.toFinset_cons, Finset.union_insert, ← Finset.insert_union]
        exact h'
      · rcases List.mem_cons.mp hv with rfl | hv
        exacts [Finset.mem_insert_self _ _, Finset.mem_insert_of_mem (hsub v hv)]

/-- **The account of the start**: the heap has its first pages, and no range is live. -/
theorem kernelBootRegistered_memory {names : AreaNames} {kernelEnd : U32} {table : U32 → U32 → U32}
    {pmm : σ} {backend : HeapBackend} {state : ρ} {k₀ : RegisteredState σ ρ}
    (hfits : FitsBelowHeap P.toLawfulPmm kernelEnd pmm)
    (hboot : kernelBootRegistered P.toLawfulPmm B names kernelEnd table pmm backend state = some k₀)
    (hready : k₀.kernel.vmm.ready) :
    ∃ s₀ V, DirectOnly P.toLawfulPmm (vmmMapEnd P.toPmmOps kernelEnd pmm) s₀ ∧ k₀.MemoryAccount P s₀ V := by
  obtain ⟨t, hinit, hboot⟩ := Option.bind_eq_some_iff.mp hboot
  obtain ⟨a, -, hboot⟩ := Option.bind_eq_some_iff.mp hboot
  obtain ⟨b, -, rfl⟩ := Option.map_eq_some_iff.mp hboot
  obtain ⟨t', hinit', hwf, -⟩ := vmmInit_boot P.lawful kernelEnd table pmm
  obtain rfl := Option.some.inj (hinit.symm.trans hinit')
  obtain ⟨hwf', hready', -⟩ := vmmUnmapIdentity_spec hwf
  have hstatic := kmallocInit_static hwf' backend.static_sound
  have h₀ := vmmInit_directOnly (P := P.toLawfulPmm) hfits hinit
    (hready'.symm.trans (hstatic.1.symm.trans hready))
  obtain ⟨u, hu⟩ : ∃ u, u = vmmUnmapIdentity t := ⟨_, rfl⟩
  rw [← hu] at h₀ hstatic hwf'
  have hpage : ∀ v, v ∈ pagesFrom kheapStart 0 (16#32).toNat ↔ PagesOf kheapStart 16#32 v :=
    fun v => mem_pagesFrom_iff (by decide) (by decide)
  rw [show (16#32).toNat = 16 from rfl] at hpage
  have hwindow : ∀ v ∈ pagesFrom kheapStart 0 16, InKheap v ∧ v.toNat < 0xE0010000 := by
    intro v hv
    obtain ⟨-, hge, hlt⟩ := (hpage v).mp hv
    rw [show kheapStart.toNat = 0xE0000000 from rfl] at hge hlt
    rw [show (16#32).toNat = 16 from rfl] at hlt
    refine ⟨⟨?_, ?_⟩, by omega⟩
    · rw [BitVec.le_def]
      exact hge
    · rw [BitVec.lt_def, show kheapEnd.toNat = 0xF0000000 from rfl]
      omega
  obtain ⟨haccount, hnodup, hsub⟩ := mappedPages_account (j := 0) 16
    (VmmState.Account.start (P := P) h₀.wellFormed) (by decide) fun v hv =>
      ⟨Finset.notMem_empty v, fun halign => h₀.none halign (.inr (.inl (hwindow v hv).1))⟩
  rw [Finset.empty_union] at haccount
  have hkernel := h₀.kernelOnly.mapFreshPages (P := P.toLawfulPmm) kheapStart 16 0#32
  have hmem : ∀ v ∈ mappedPages P.toLawfulPmm kheapStart 16 0#32 u, InKheap v ∧ v.toNat < 0xE0010000 :=
    fun v hv => hwindow v (hsub v hv)
  have hvmm : (kmallocInit P.toLawfulPmm u backend.static).1 =
      (mapFreshPages P.toLawfulPmm kheapStart 16 0#32 u).1 := by
    unfold kmallocInit
    dsimp only
    split
    · rfl
    · rfl
  -- an initialised heap has its marks behind its pages, and another one at the first page
  have hheap : (kmallocInit P.toLawfulPmm u backend.static).2.Sound ∧
      (kmallocInit P.toLawfulPmm u backend.static).2.Owns
        (mappedPages P.toLawfulPmm kheapStart 16 0#32 u) := by
    have hinitOwns : ∀ heap : KernelHeap, (heap.init kheapStart
        (kheapInitialPages * vmmPageSize)).Owns (mappedPages P.toLawfulPmm kheapStart 16 0#32 u) := by
      intro heap
      cases heap with
      | firstFit c => trivial
      | slab c =>
        have hmarks : kheapStart.PageAligned ∧
            (kheapStart + kheapInitialPages * vmmPageSize).PageAligned ∧
            kheapStart ≤ kheapStart + kheapInitialPages * vmmPageSize := by decide
        exact ⟨hmarks.1, hmarks.2.1, hmarks.2.2, fun v hv => .inl (hmem v hv).2⟩
    have hstaticOwns : backend.static.Owns (mappedPages P.toLawfulPmm kheapStart 16 0#32 u) := by
      cases backend with
      | firstFit header => trivial
      | slab header =>
        have hmarks : U32.PageAligned 0#32 := by decide
        exact ⟨hmarks, hmarks, BitVec.le_refl _, fun v hv => .inr ⟨(hmem v hv).1, Nat.zero_le _⟩⟩
    unfold kmallocInit
    dsimp only
    split
    · exact ⟨KernelHeap.init_sound _, hinitOwns _⟩
    · exact ⟨backend.static_sound, hstaticOwns⟩
  have hnext : (kmallocInit P.toLawfulPmm u backend.static).1.nextVaddr = u.nextVaddr := hstatic.2.1
  refine ⟨u, (mappedPages P.toLawfulPmm kheapStart 16 0#32 u).toFinset, h₀, ?_⟩
  rw [← hu]
  refine ⟨hvmm ▸ haccount, hvmm ▸ hkernel, fun v => ?_, ?_, hheap.1, hheap.2,
    fun v hv => .inl (hmem v hv).1, by simp, by simp, by simp, by simp,
    (congrArg BitVec.toNat hnext).ge, hnext ▸ h₀.aligned⟩
  · rw [List.mem_toFinset]
    exact ⟨.inl, fun hv => hv.resolve_right (by rintro ⟨r, hr, -⟩; exact absurd hr List.not_mem_nil)⟩
  · rw [List.toFinset_card_of_nodup hnodup]
    rfl

end Boot

section Runs
variable {σ : Type*} {ρ : Type} {P : CountingPmm σ} {B : VmaOps ρ} {s₀ : VmmState σ} {mapEnd : U32}
  {k₀ k : RegisteredState σ ρ} {V : Finset U32}

/-- A page that the kernel holds: one of the direct map, of the heap or of a live range. -/
def RegisteredState.Holds (mapEnd : U32) (k : RegisteredState σ ρ) (v : U32) : Prop :=
  (kernelVirtOffset ≤ v ∧ v - kernelVirtOffset < mapEnd) ∨ k.Mapped v

/-- **The kernel's memory is accounted for**: an access reaches memory exactly when it is the kernel's and
its page is held; the direct map is where it was and the other pages that are held have distinct frames,
which are in use and hold no page table; the pages of a range that was given back are not held; and the
free frames, the page tables, the pages of the heap and those of the live ranges add up to what they were
at the start. -/
structure MemoryAccounted (P : CountingPmm σ) (mapEnd : U32) (k₀ k : RegisteredState σ ρ) : Prop where
  reaches : ∀ wp (a : Access), (∃ x, a.outcome wp (k.kernel.vmm.tables.walk (pageOf a.address)) =
    .reaches x) ↔ a.user = false ∧ k.Holds mapEnd (pageAddr (pageOf a.address))
  direct : ∀ f, f.PageAligned → f < mapEnd → vmmGetPhysical (physToVirt f) k.kernel.vmm = some f
  frame : ∀ v, k.Mapped v → ∃ f, vmmGetPhysical v k.kernel.vmm = some f ∧ P.InUse k.kernel.vmm.pmm f ∧
    ¬ k.kernel.vmm.IsTable f
  distinct : ∀ v w, k.Mapped v → k.Mapped w →
    vmmGetPhysical v k.kernel.vmm = vmmGetPhysical w k.kernel.vmm → v = w
  returned : ∀ r ∈ k.kernel.pages, r ∉ k.live → ∀ v, PagesOf r.1 r.2 v → ¬ k.Holds mapEnd v
  count : (P.freePages k.kernel.vmm.pmm).toNat + k.kernel.vmm.tableCount + k.heapPages.length +
      pageTotal k.live =
    (P.freePages k₀.kernel.vmm.pmm).toNat + k₀.kernel.vmm.tableCount + k₀.heapPages.length +
      pageTotal k₀.live

/-- What is mapped. -/
theorem RegisteredState.MemoryAccount.translate_ne_none_iff (h : k.MemoryAccount P s₀ V)
    (h₀ : DirectOnly P.toLawfulPmm mapEnd s₀) {v : U32} (hv : v.PageAligned) :
    k.kernel.vmm.translate v ≠ none ↔ k.Holds mapEnd v := by
  unfold RegisteredState.Holds
  rw [← h.pages v]
  by_cases hin : v ∈ V
  · obtain ⟨f, hf, -⟩ := h.account.frame v hin
    simp [hin, hf]
  · rw [h.account.other v hv hin, h₀.translate v hv]
    simp [hin]

/-- What the account says. -/
theorem RegisteredState.MemoryAccount.accounted {V₀ : Finset U32} (h : k.MemoryAccount P s₀ V)
    (hstart : k₀.MemoryAccount P s₀ V₀) (h₀ : DirectOnly P.toLawfulPmm mapEnd s₀) :
    MemoryAccounted P mapEnd k₀ k := by
  have hready : k.kernel.vmm.ready = true := h.account.ready.trans h₀.ready
  have hget : ∀ v, v.PageAligned → vmmGetPhysical v k.kernel.vmm = k.kernel.vmm.translate v := fun v hv => by
    rw [vmmGetPhysical_eq, if_pos ⟨hready, hv⟩]
  have halign : ∀ v, k.Mapped v → v.PageAligned := fun v hv => (h.account.fresh v ((h.pages v).mpr hv)).1
  refine ⟨fun wp a => ?_, fun f hf hlt => ?_, fun v hv => ?_, fun v w hv hw heq => ?_,
    fun r hr hnot v hv hin => ?_, ?_⟩
  · rw [h.kernelOnly.reaches_iff wp a, h.translate_ne_none_iff h₀ (pageAddr_aligned _)]
  · -- the direct map is in front of everything that was mapped since
    have hva := physToVirt_aligned hf
    have hmax := h₀.mapEnd_le
    have hnat := physToVirt_toNat (hmax.trans (by decide)) hlt
    have hback : physToVirt f - kernelVirtOffset = f := BitVec.add_sub_cancel ..
    have htrans : s₀.translate (physToVirt f) = some f := by
      rw [h₀.translate _ hva, hback, if_pos]
      refine ⟨?_, hlt⟩
      rw [BitVec.le_def, hnat]
      exact Nat.le_add_right _ _
    rw [hget _ hva, h.account.other _ hva fun hin => ?_, htrans]
    rw [(h.account.fresh _ hin).2] at htrans
    exact absurd htrans (by simp)
  · have hin := (h.pages v).mpr hv
    obtain ⟨f, hf, -⟩ := h.account.frame v hin
    obtain ⟨-, -, htable, huse⟩ := h.account.of_translate hin hf
    exact ⟨f, (hget v (halign v hv)).trans hf, huse, htable⟩
  · rw [hget v (halign v hv), hget w (halign w hw)] at heq
    exact h.account.injective v ((h.pages v).mpr hv) w ((h.pages w).mpr hw) heq
  · obtain ⟨-, -, -, hge, -, hW⟩ := h.results r hr
    have hmark := hge.trans hv.2.1
    rcases hin with hdirect | hin | ⟨r', hr', hv'⟩
    · have hnone := h₀.none hv.1 (.inl hmark)
      rw [h₀.translate v hv.1, if_pos hdirect] at hnone
      exact absurd hnone (by simp)
    · exact h.notMem_heapPages h₀ hmark (hW v hv) hin
    · refine h.separate hr (h.live r' hr') ?_ hv hv'
      rintro rfl
      exact hnot hr'
  · have hnow := h.account.count
    have hthen := hstart.account.count
    rw [h.total] at hnow
    rw [hstart.total] at hthen
    omega

/-- **The kernel's memory is accounted for in every run** from the start on of `kmalloc`, `kfree`,
`vmm_alloc_pages` and `vmm_free_pages`, whatever the backends, when the direct map ends in front of the heap
window and the requests for pages that pass the checks have room. -/
theorem registeredMachine_accounted {names : AreaNames} {kernelEnd : U32} {table : U32 → U32 → U32} {pmm : σ}
    {backend : HeapBackend} {state : ρ} (hfits : FitsBelowHeap P.toLawfulPmm kernelEnd pmm)
    (hboot : kernelBootRegistered P.toLawfulPmm B names kernelEnd table pmm backend state = some k₀)
    (hready : k₀.kernel.vmm.ready)
    (hk : (registeredMachine P.toLawfulPmm B names.vmmAlloc k₀).ReachableVia
      (fun k call => InRoom k.kernel call) k) :
    (∀ v, k.Mapped v → v.PageAligned) ∧
      MemoryAccounted P (vmmMapEnd P.toPmmOps kernelEnd pmm) k₀ k := by
  obtain ⟨s₀, V₀, h₀, hstart⟩ := kernelBootRegistered_memory hfits hboot hready
  obtain ⟨V, h⟩ := hk.invariant (I := fun k => ∃ V, k.MemoryAccount P s₀ V) ⟨V₀, hstart⟩ (by
    rintro u u' call answer ⟨V, h⟩ hroom hstep
    have hres : registeredCall P.toLawfulPmm B names.vmmAlloc u call = some (u', answer) := hstep
    cases call with
    | kmalloc size => exact h.kmalloc h₀ hres
    | kfree ptr => exact ⟨V, h.kfree hres⟩
    | allocPages count => exact h.alloc h₀ hroom hres
    | freePages vaddr count => exact h.free h₀ hres)
  exact ⟨fun v hv => (h.account.fresh v ((h.pages v).mpr hv)).1, h.accounted hstart h₀⟩

end Runs

end Microkernel.Kernel
