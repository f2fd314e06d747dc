import Microkernel.Kernel.FreshPages
import Microkernel.Kernel.PmmAccounts
import Microkernel.Kernel.VmaRegistry
import Microkernel.Vma.SortedArray
import Microkernel.Vmm.PageAccount

/-! # Page frames are conserved

A failed `vmm_alloc_pages` takes nothing but the frames of new page tables. Over any run of
`vmm_alloc_pages` and `vmm_free_pages` a frame is free, a page table, or under exactly one page of a live
range. The physical allocator is any with exact accounts, as both backends are.

* **`PageClient`, `PageCall`** — the page tables with the ranges that callers hold, as a machine.
* **`PageClient.Sound`** — the invariant behind it: the mapped pages are those of the live ranges, below
  the watermark.
* **`FramesConserved`, `FreesOnce`** — the account of the frames, and what giving one range back does to
  it.
* **`pageMachine_conserved`** — it balances in every run. The page tables are apart from the memory here;
  `Kernel/PagedFrames` carries the result over, and says which frames break it there.
-/

namespace Microkernel.Kernel

open Vma Vmm

/-! ### A request that fails -/

section Failure
variable {σ : Type*} {ρ : Type} {P : CountingPmm σ} {B : VmaOps ρ} {s s' : VmmState σ}
  {r r' : VmaRegistry ρ} {name : NamePtr} {count : U32}

end Failure

/-- The page tables with the ranges that `vmm_alloc_pages` returned and that were not given back. -/
structure PageClient (σ : Type*) where
  /-- The virtual memory manager. -/
  vmm : VmmState σ
  /-- The live ranges. -/
  live : List (U32 × U32)

/-- A call. -/
inductive PageCall where
  | alloc (count : U32)
  | free (vaddr count : U32)

/-- One call. Only live ranges are given to `vmm_free_pages`. -/
def pageCall {σ : Type*} (P : LawfulPmm σ) (c : PageClient σ) : PageCall → Option (PageClient σ × U32)
  | .alloc count =>
      let (vmm, p) := vmmAllocPages P count c.vmm
      some (⟨vmm, if p = 0#32 then c.live else (p, count) :: c.live⟩, p)
  | .free vaddr count =>
      if c.live.contains (vaddr, count) then
        some (⟨vmmFreePages P vaddr count c.vmm, c.live.erase (vaddr, count)⟩, 0#32)
      else some (c, 0#32)

/-- `vmm_alloc_pages` and `vmm_free_pages` from a state on, as a machine. -/
def pageMachine {σ : Type*} (P : LawfulPmm σ) (s : VmmState σ) :
    Machine (PageClient σ) PageCall U32 := ⟨⟨s, []⟩, pageCall P⟩

/-- The product of a count and the size of a page does not wrap around, and the watermark does not pass
the start of the heap window; or the request is turned away by a check. Behind the window there is room
again up to the end of the address space. -/
def PageClient.InRoom {σ : Type*} (c : PageClient σ) : PageCall → Prop
  | .alloc count => c.vmm.Rejects count ∨ RoomFor c.vmm.nextVaddr count
  | .free _ _ => True

/-- The number of pages of the ranges. -/
def pageTotal : List (U32 × U32) → ℕ
  | [] => 0
  | r :: l => r.2.toNat + pageTotal l

/-- **Page frames are conserved**: the live ranges have no page in common, their pages are mapped to
distinct frames that hold no page table, and the free frames, the live pages and the page tables add up to
what they were at the start. -/
structure FramesConserved {σ : Type*} (P : CountingPmm σ) (s₀ : VmmState σ) (c : PageClient σ) :
    Prop where
  disjoint : c.live.Pairwise fun r r' => ∀ v, PagesOf r.1 r.2 v → ¬ PagesOf r'.1 r'.2 v
  mapped : ∀ r ∈ c.live, ∀ v, PagesOf r.1 r.2 v →
    ∃ f, vmmGetPhysical v c.vmm = some f ∧ P.InUse c.vmm.pmm f ∧ ¬ c.vmm.IsTable f
  distinct : ∀ r ∈ c.live, ∀ r' ∈ c.live, ∀ v w, PagesOf r.1 r.2 v → PagesOf r'.1 r'.2 w →
    vmmGetPhysical v c.vmm = vmmGetPhysical w c.vmm → v = w
  total : (P.freePages c.vmm.pmm).toNat + pageTotal c.live + c.vmm.tableCount =
    (P.freePages s₀.pmm).toNat + s₀.tableCount

/-- **A range is given back**: none of its pages is mapped any more, and the calls of `pmm_free_page` were
one for each frame under it, which are the frames that are not in use any more. -/
structure FreesOnce {σ : Type*} (P : CountingPmm σ) (s : VmmState σ) (p count : U32) : Prop where
  unmapped : ∀ v, PagesOf p count v → vmmIsMapped v (vmmFreePages P.toLawfulPmm p count s) = 0
  once : ∃ frames : List U32, frames.Nodup ∧ frames.length = count.toNat ∧
    (∀ f, f ∈ frames ↔ ∃ v, PagesOf p count v ∧ vmmGetPhysical v s = some f) ∧
    (∀ f, P.InUse (vmmFreePages P.toLawfulPmm p count s).pmm f ↔ P.InUse s.pmm f ∧ f ∉ frames) ∧
    (vmmFreePages P.toLawfulPmm.recording p count (s.recorded [])).pmm =
      ((vmmFreePages P.toLawfulPmm p count s).pmm, frames)

/-- The sum of the pages does not depend on the order of the ranges. -/
theorem pageTotal_perm {l l' : List (U32 × U32)} (h : l.Perm l') : pageTotal l = pageTotal l' := by
  induction h with
  | nil => rfl
  | cons r _ ih => rw [pageTotal, pageTotal, ih]
  | swap r r' l =>
    simp only [pageTotal]
    omega
  | trans _ _ ih₁ ih₂ => exact ih₁.trans ih₂

section Run
variable {σ : Type*} {P : CountingPmm σ} {s₀ : VmmState σ} {c : PageClient σ}

/-- **The invariant of the run**: the pages mapped since the start are those of the live ranges, which lie
below the watermark. -/
structure PageClient.Sound (P : CountingPmm σ) (s₀ : VmmState σ) (c : PageClient σ)
    (V : Finset U32) : Prop where
  account : VmmState.Account P s₀ c.vmm V
  pages : ∀ v, v ∈ V ↔ ∃ r ∈ c.live, PagesOf r.1 r.2 v
  total : V.card = pageTotal c.live
  disjoint : c.live.Pairwise fun r r' => ∀ v, PagesOf r.1 r.2 v → ¬ PagesOf r'.1 r'.2 v
  range : ∀ r ∈ c.live, r.1.PageAligned ∧ r.1 ≠ 0#32 ∧ r.2 ≠ 0#32 ∧
    r.1.toNat + r.2.toNat * 4096 ≤ c.vmm.nextVaddr.toNat
  ready : c.live ≠ [] → s₀.ready
  watermark : s₀.nextVaddr.toNat ≤ c.vmm.nextVaddr.toNat
  aligned : c.vmm.nextVaddr.PageAligned
  idle : s₀.nextVaddr = 0#32 → c.vmm.nextVaddr = 0#32

/-- **A request with room** keeps the invariant. -/
theorem PageClient.Sound.alloc {V : Finset U32} (h : c.Sound P s₀ V)
    (hfront : s₀.nextVaddr ≠ 0#32 → ∀ v, v.PageAligned → s₀.translate v ≠ none →
      v.toNat < s₀.nextVaddr.toNat ∨ InKheap v) {count : U32} (hroom : c.InRoom (.alloc count))
    {s' : VmmState σ} {p : U32} (hres : vmmAllocPages P.toLawfulPmm count c.vmm = (s', p)) :
    ∃ V', PageClient.Sound P s₀
      ⟨s', if p = 0#32 then c.live else (p, count) :: c.live⟩ V' := by
  by_cases hrej : c.vmm.Rejects count
  · rw [vmmAllocPages_rejects hrej] at hres
    obtain ⟨rfl, rfl⟩ := Prod.mk.inj hres
    exact ⟨V, h⟩
  obtain ⟨hend, hW⟩ := (hroom.resolve_left hrej).outside
  have hnext : c.vmm.nextVaddr ≠ 0#32 := fun hzero => hrej (.inr (.inr (.inl hzero)))
  have hnext₀ : s₀.nextVaddr ≠ 0#32 := fun hzero => hnext (h.idle hzero)
  have hmem : ∀ v, v ∈ pagesFrom c.vmm.nextVaddr 0 count.toNat ↔ PagesOf c.vmm.nextVaddr count v :=
    fun v => mem_pagesFrom_iff h.aligned hend.le
  -- the live pages are below the watermark
  have hnew : ∀ v, PagesOf c.vmm.nextVaddr count v → ∀ r ∈ c.live, ¬ PagesOf r.1 r.2 v := by
    rintro v ⟨-, hge, -⟩ r hr ⟨-, -, hlt⟩
    have hle := (h.range r hr).2.2.2
    omega
  obtain ⟨s₁, p₁, hres₁, -, hnext₁, hcase⟩ := vmmAllocPages_account h.account hrej (by omega)
    fun v hv => by
      have hv' := (hmem v).mp hv
      refine ⟨fun hin => ?_, fun halign => ?_⟩
      · obtain ⟨r, hr, hrv⟩ := (h.pages v).mp hin
        exact hnew v hv' r hr hrv
      · by_contra hne
        rcases hfront hnext₀ v halign hne with hlt | hin
        · have hle := h.watermark
          have hge := hv'.2.1
          omega
        · exact hW v hv' hin
  obtain ⟨rfl, rfl⟩ := Prod.mk.inj (hres₁.symm.trans hres)
  have haligned : s₁.nextVaddr.PageAligned := by
    have hbefore := (U32.pageAligned_iff _).mp h.aligned
    rw [U32.pageAligned_iff, hnext₁]
    omega
  have hwatermark : s₀.nextVaddr.toNat ≤ s₁.nextVaddr.toNat := by
    have hle := h.watermark
    omega
  have hrange : ∀ r ∈ c.live, r.1.PageAligned ∧ r.1 ≠ 0#32 ∧ r.2 ≠ 0#32 ∧
      r.1.toNat + r.2.toNat * 4096 ≤ s₁.nextVaddr.toNat := by
    intro r hr
    obtain ⟨h₁, h₂, h₃, hle⟩ := h.range r hr
    exact ⟨h₁, h₂, h₃, by omega⟩
  rcases hcase with ⟨rfl, haccount⟩ | ⟨rfl, hne, haccount⟩
  · exact ⟨V, haccount, h.pages, h.total, h.disjoint, hrange, h.ready, hwatermark, haligned,
      fun hzero => absurd hzero hnext₀⟩
  rw [if_neg hne]
  have hready : s₀.ready := by
    rw [← h.account.ready]
    by_contra hnot
    exact hrej (.inr (.inl hnot))
  refine ⟨_, haccount, fun v => ?_, ?_, List.pairwise_cons.mpr ⟨fun r hr v hv => hnew v hv r hr,
    h.disjoint⟩, fun r hr => ?_, fun _ => hready, hwatermark, haligned,
    fun hzero => absurd hzero hnext₀⟩
  · rw [Finset.mem_union, h.pages v, hmem v]
    constructor
    · rintro (⟨r, hr, hv⟩ | hv)
      exacts [⟨r, List.mem_cons_of_mem _ hr, hv⟩, ⟨_, List.mem_cons_self, hv⟩]
    · rintro ⟨r, hr, hv⟩
      rcases List.mem_cons.mp hr with rfl | hr
      exacts [.inr hv, .inl ⟨r, hr, hv⟩]
  · have hdisjoint : Disjoint V (pagesFrom c.vmm.nextVaddr 0 count.toNat) := by
      rw [Finset.disjoint_left]
      intro v hv hin
      obtain ⟨r, hr, hrv⟩ := (h.pages v).mp hv
      exact hnew v ((hmem v).mp hin) r hr hrv
    rw [Finset.card_union_of_disjoint hdisjoint, h.total,
      card_pagesFrom (by rw [Nat.zero_add]; exact hend.le), pageTotal, Nat.add_comm]
  · rcases List.mem_cons.mp hr with rfl | hr
    · refine ⟨h.aligned, hne, ?_, hnext₁.ge⟩
      rintro rfl
      exact hrej (.inl rfl)
    · exact hrange r hr

/-- **Giving a live range back** keeps the invariant and frees each of its frames once. -/
theorem PageClient.Sound.free {V : Finset U32} (h : c.Sound P s₀ V) {p count : U32}
    (hr : (p, count) ∈ c.live) :
    (∃ V', PageClient.Sound P s₀
        ⟨vmmFreePages P.toLawfulPmm p count c.vmm, c.live.erase (p, count)⟩ V') ∧
      FreesOnce P c.vmm p count := by
  obtain ⟨halign, hne, hzero, hle⟩ := h.range _ hr
  dsimp only at halign hne hzero hle
  have hready := h.ready (List.ne_nil_of_mem hr)
  have hready' : c.vmm.ready = true := h.account.ready.trans hready
  have hend : p.toNat + count.toNat * 4096 ≤ 2 ^ 32 := hle.trans c.vmm.nextVaddr.isLt.le
  have hmem : ∀ v, v ∈ pagesFrom p 0 count.toNat ↔ PagesOf p count v :=
    fun v => mem_pagesFrom_iff halign hend
  have hsub : pagesFrom p 0 count.toNat ⊆ V := fun v hv =>
    (h.pages v).mpr ⟨_, hr, (hmem v).mp hv⟩
  have hguard : ¬ (p = 0#32 ∨ count = 0#32 ∨ ¬ c.vmm.ready = true) := by simp [hne, hzero, hready']
  -- the loop gives up the pages of the range, which were all mapped
  obtain ⟨s', frames, hloop, h', hnext, hframes, hnodup, hinUse, htrans, hlog⟩ :=
    freeMappedPages_account count.toNat (j := 0) h.account hready (by rw [Nat.zero_add]; exact hend)
      hsub
  have hres : vmmFreePages P.toLawfulPmm p count c.vmm = s' := by
    unfold vmmFreePages
    rw [if_neg hguard]
    exact hloop
  -- the range leaves the list of live ones, so its pages are those of no other
  have hcard : (pagesFrom p 0 count.toNat).card = count.toNat :=
    card_pagesFrom (by rw [Nat.zero_add]; exact hend)
  have hperm := List.perm_cons_erase hr
  rw [hres]
  refine ⟨⟨_, h', fun v => ?_, ?_, ?_, fun r hr' => ?_, fun hne' => hready, hnext ▸ h.watermark,
    hnext ▸ h.aligned, fun hz => hnext.trans (h.idle hz)⟩, ⟨fun v hv => ?_, frames, hnodup, ?_,
    fun f => ?_, fun f => ?_, ?_⟩⟩
  · rw [Finset.mem_sdiff, h.pages v, hmem v]
    have hpair := hperm.pairwise h.disjoint fun hd v hv hv' => hd v hv' hv
    constructor
    · rintro ⟨⟨r, hr', hv⟩, hnot⟩
      rcases List.mem_cons.mp (hperm.mem_iff.mp hr') with rfl | hr'
      exacts [absurd hv hnot, ⟨r, hr', hv⟩]
    · rintro ⟨r, hr', hv⟩
      exact ⟨⟨r, List.mem_of_mem_erase hr', hv⟩, fun hp =>
        (List.pairwise_cons.mp hpair).1 r hr' v hp hv⟩
  · have hsum := pageTotal_perm hperm
    rw [pageTotal] at hsum
    dsimp only at hsum
    rw [Finset.card_sdiff_of_subset hsub, h.total, hcard]
    show pageTotal c.live - count.toNat = pageTotal (c.live.erase (p, count))
    omega
  · exact (List.pairwise_cons.mp (hperm.pairwise h.disjoint fun hd v hv hv' => hd v hv' hv)).2
  · have hle := h.range r (List.mem_of_mem_erase hr')
    rw [← hnext] at hle
    exact hle
  · rw [hres, vmmIsMapped_eq, if_pos ⟨h'.ready.trans hready, hv.1⟩, htrans v hv.1,
      if_pos ((hmem v).mpr hv)]
    rfl
  · -- one frame for each page
    have hbij : frames.length = (pagesFrom p 0 count.toNat).card := by
      rw [← List.toFinset_card_of_nodup hnodup]
      symm
      refine Finset.card_bij (fun v hv => (c.vmm.translate v).getD 0#32) ?_ ?_ ?_
      · intro v hv
        obtain ⟨f, hf, -⟩ := h.account.frame v (hsub hv)
        rw [List.mem_toFinset, hframes]
        exact ⟨v, hv, by rw [hf]; rfl⟩
      · intro v hv w hw heq
        obtain ⟨f, hf, -⟩ := h.account.frame v (hsub hv)
        obtain ⟨g, hg, -⟩ := h.account.frame w (hsub hw)
        rw [hf, hg] at heq
        exact h.account.injective v (hsub hv) w (hsub hw) (by rw [hf, hg]; exact congrArg some heq)
      · intro f hf
        obtain ⟨v, hv, hvf⟩ := (hframes f).mp (List.mem_toFinset.mp hf)
        exact ⟨v, hv, by rw [hvf]; rfl⟩
    exact hbij.trans hcard
  · rw [hframes f]
    refine exists_congr fun v => ?_
    rw [hmem v, vmmGetPhysical_eq]
    refine and_congr_right fun hv => ?_
    rw [if_pos ⟨hready', hv.1⟩]
  · rw [hres]
    exact hinUse f
  · have hguard' : ¬ (p = 0#32 ∨ count = 0#32 ∨ ¬ (c.vmm.recorded []).ready = true) := hguard
    have hrecord := hlog []
    rw [List.append_nil] at hrecord
    rw [hres]
    unfold vmmFreePages
    rw [if_neg hguard']
    exact congrArg VmmState.pmm hrecord

/-- One call with room keeps the invariant. -/
theorem pageCall_sound {c' : PageClient σ} {call : PageCall} {answer : U32} {V : Finset U32}
    (h : c.Sound P s₀ V) (hfront : s₀.nextVaddr ≠ 0#32 → ∀ v, v.PageAligned →
      s₀.translate v ≠ none → v.toNat < s₀.nextVaddr.toNat ∨ InKheap v)
    (hroom : c.InRoom call) (hres : pageCall P.toLawfulPmm c call = some (c', answer)) :
    ∃ V', c'.Sound P s₀ V' := by
  cases call with
  | alloc count =>
    obtain ⟨s', p, halloc⟩ : ∃ s' p, vmmAllocPages P.toLawfulPmm count c.vmm = (s', p) :=
      ⟨_, _, rfl⟩
    simp only [pageCall, halloc] at hres
    obtain ⟨rfl, -⟩ := Prod.mk.inj (Option.some.inj hres)
    exact h.alloc hfront hroom halloc
  | free vaddr count =>
    by_cases hheld : c.live.contains (vaddr, count)
    · simp only [pageCall, if_pos hheld] at hres
      obtain ⟨rfl, -⟩ := Prod.mk.inj (Option.some.inj hres)
      exact (h.free (List.contains_iff_mem.mp hheld)).1
    · simp only [pageCall, if_neg hheld] at hres
      obtain ⟨rfl, -⟩ := Prod.mk.inj (Option.some.inj hres)
      exact ⟨V, h⟩

/-- What the invariant says about the frames. -/
theorem PageClient.Sound.conserved {V : Finset U32} (h : c.Sound P s₀ V) : FramesConserved P s₀ c := by
  have hget : ∀ r ∈ c.live, ∀ v, PagesOf r.1 r.2 v →
      v ∈ V ∧ vmmGetPhysical v c.vmm = c.vmm.translate v := by
    intro r hr v hv
    have hready := h.account.ready.trans (h.ready (List.ne_nil_of_mem hr))
    exact ⟨(h.pages v).mpr ⟨r, hr, hv⟩, by rw [vmmGetPhysical_eq, if_pos ⟨hready, hv.1⟩]⟩
  refine ⟨h.disjoint, fun r hr v hv => ?_, fun r hr r' hr' v w hv hw heq => ?_, ?_⟩
  · obtain ⟨hmem, hphys⟩ := hget r hr v hv
    obtain ⟨f, hf, -⟩ := h.account.frame v hmem
    obtain ⟨-, -, htable, huse⟩ := h.account.of_translate hmem hf
    exact ⟨f, hphys.trans hf, huse, htable⟩
  · obtain ⟨hmem, hphys⟩ := hget r hr v hv
    obtain ⟨hmem', hphys'⟩ := hget r' hr' w hw
    rw [hphys, hphys'] at heq
    exact h.account.injective v hmem w hmem' heq
  · have hcount := h.account.count
    rw [← h.total]
    omega

variable {kernelEnd : U32} {table : U32 → U32 → U32} {pmm : σ} {backend : HeapBackend}
  {k₀ : KernelState σ}

/-- **Page frames are conserved** in every run of `vmm_alloc_pages` and `vmm_free_pages` from the start
on, as long as the requests that pass the checks have room: the live ranges share no page and no frame,
the sum of free frames, live pages and page tables is the one of the start, and whichever live range is
given back next, each of its frames is freed once. -/
theorem pageMachine_conserved (hboot : kernelBoot P.toLawfulPmm kernelEnd table pmm backend = some k₀)
    (hs : (pageMachine P.toLawfulPmm k₀.vmm).ReachableVia PageClient.InRoom c) :
    FramesConserved P k₀.vmm c ∧ ∀ r ∈ c.live, FreesOnce P c.vmm r.1 r.2 := by
  obtain ⟨harea, -⟩ := kernelBoot_area hboot
  obtain ⟨hwf, haligned, hfront⟩ : k₀.vmm.WellFormed P.InUse ∧ k₀.vmm.nextVaddr.PageAligned ∧
      (k₀.vmm.nextVaddr ≠ 0#32 → ∀ v, v.PageAligned → k₀.vmm.translate v ≠ none →
        v.toNat < k₀.vmm.nextVaddr.toNat ∨ InKheap v) := by
    rcases harea with ⟨hwf, hnext, -⟩ | ⟨base, -, h⟩
    · exact ⟨hwf, by rw [hnext]; decide, fun hne => absurd hnext hne⟩
    · exact ⟨h.area.wellFormed, h.aligned, fun _ => h.area.frontier⟩
  have hstart : PageClient.Sound P k₀.vmm ⟨k₀.vmm, []⟩ ∅ :=
    ⟨.start hwf, by simp, rfl, .nil, by simp, by simp, le_rfl, haligned, id⟩
  obtain ⟨V, h⟩ := hs.invariant (I := fun c => ∃ V, PageClient.Sound P k₀.vmm c V) ⟨∅, hstart⟩
    fun _ _ _ _ ⟨V, h⟩ hroom hres => pageCall_sound h hfront hroom hres
  exact ⟨h.conserved, fun r hr => (h.free hr).2⟩

end Run

end Microkernel.Kernel
