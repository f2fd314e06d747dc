import Microkernel.Kernel.DirectMap

/-! # What `vmm_alloc_pages` returns

The watermark of `vmm_alloc_pages` starts behind the direct map and only grows, and the one limit that is
checked is the end of the address space. As long as every range that is asked for ends in front of the
heap window, or begins behind it, the ranges are fresh; the watermark itself does not stop at the
window.

* **`FreshRange`** — what a caller may rely on: whole pages, none mapped before, none of the heap.
* **`AreaInvariant`** — the ranges returned so far lie between the end of the direct map and the
  watermark.
* **`watermark_cases`** — where the watermark starts, wrap-around included.
* **`kernelMachine_fresh`** — over all runs whose requests had room. The page tables are apart from the
  memory; `Kernel/PagedAccount` carries this over.
-/

namespace Microkernel.Kernel

open Heap Vmm

/-- **A fresh range**: `count` whole pages from `p` on without wrap-around, none of them mapped before,
all of them mapped afterwards, and none in the heap window. -/
structure FreshRange {σ : Type*} (s s' : VmmState σ) (p count : U32) : Prop where
  aligned : p.PageAligned
  noWrap : p.toNat + count.toNat * 4096 ≤ 2 ^ 32
  unmapped : ∀ v, PagesOf p count v → vmmIsMapped v s = 0
  mapped : ∀ v, PagesOf p count v → vmmIsMapped v s' = 1
  outside : ∀ v, PagesOf p count v → ¬ InKheap v

/-- A range for which `vmm_alloc_pages` may use the addresses from the watermark on: it ends in front of
the heap window, or it begins behind the window and ends below `2 ^ 32`. The product of `count` and the
size of a page is the one of the natural numbers. -/
def RoomFor (nextVaddr count : U32) : Prop :=
  nextVaddr.toNat + count.toNat * 4096 ≤ kheapStart.toNat ∨
    kheapEnd.toNat ≤ nextVaddr.toNat ∧ nextVaddr.toNat + count.toNat * 4096 < 2 ^ 32

/-- A call of `vmm_alloc_pages` is turned away by a check or has room. -/
def InRoom {σ : Type*} (s : KernelState σ) : KernelCall → Prop
  | .allocPages count => s.vmm.Rejects count ∨ RoomFor s.vmm.nextVaddr count
  | _ => True

section Area
variable {σ : Type*} {P : LawfulPmm σ} {s : KernelState σ} {base : ℕ}

/-- **The invariant of the ranges**: the pages behind `base` that are not of the heap are the allocation
area, and the ranges that were returned lie in it. -/
structure AreaInvariant (s : KernelState σ) (P : LawfulPmm σ) (base : ℕ) : Prop where
  area : s.vmm.AllocArea P InKheap base s.vmm.nextVaddr.toNat
  base_le : base ≤ s.vmm.nextVaddr.toNat
  aligned : s.vmm.nextVaddr.PageAligned
  ranges : ∀ r ∈ s.pages, r.1.PageAligned ∧ base ≤ r.1.toNat ∧
    r.1.toNat + r.2.toNat * 4096 ≤ 2 ^ 32 ∧ ∀ v, PagesOf r.1 r.2 v → ¬ InKheap v

/-- A range with room misses the heap window. -/
theorem RoomFor.outside {nextVaddr count : U32} (h : RoomFor nextVaddr count) :
    nextVaddr.toNat + count.toNat * 4096 < 2 ^ 32 ∧
      ∀ v, PagesOf nextVaddr count v → ¬ InKheap v := by
  have hstart : kheapStart.toNat = 0xE0000000 := rfl
  have hend : kheapEnd.toNat = 0xF0000000 := rfl
  rcases h with h | ⟨hge, hlt⟩
  · refine ⟨by omega, ?_⟩
    rintro v ⟨-, -, hv⟩ ⟨hin, -⟩
    rw [BitVec.le_def] at hin
    omega
  · refine ⟨hlt, ?_⟩
    rintro v ⟨-, hv, -⟩ ⟨-, hin⟩
    rw [BitVec.lt_def] at hin
    omega

/-- **One request with room** keeps the invariant and returns `NULL` or a fresh range. -/
theorem AreaInvariant.alloc (h : AreaInvariant s P base) {count : U32}
    (hroom : InRoom s (.allocPages count)) {vmm : VmmState σ} {p : U32}
    (hres : vmmAllocPages P count s.vmm = (vmm, p)) :
    AreaInvariant ⟨vmm, s.heap, if p = 0#32 then s.pages else (p, count) :: s.pages⟩ P base ∧
      (p ≠ 0#32 → FreshRange s.vmm vmm p count) := by
  by_cases hrej : s.vmm.Rejects count
  · -- nothing is changed
    rw [vmmAllocPages_rejects hrej] at hres
    obtain ⟨rfl, rfl⟩ := Prod.mk.inj hres
    exact ⟨⟨h.area, h.base_le, h.aligned, h.ranges⟩, fun hne => absurd rfl hne⟩
  obtain ⟨hend, hW⟩ := (hroom.resolve_left hrej).outside
  obtain ⟨vmm', p', hres', harea, hbase, halign, hfresh⟩ :=
    vmmAllocPages_area h.area h.base_le h.aligned hrej hend hW
  obtain ⟨rfl, rfl⟩ := Prod.mk.inj (hres'.symm.trans hres)
  refine ⟨⟨harea, hbase, halign, ?_⟩, fun hne => ?_⟩
  · intro r hr
    by_cases hp : p' = 0#32
    · rw [if_pos hp] at hr
      exact h.ranges r hr
    · rw [if_neg hp] at hr
      rcases List.mem_cons.mp hr with rfl | hr
      · obtain ⟨rfl, -⟩ := hfresh hp
        exact ⟨h.aligned, h.base_le, hend.le, hW⟩
      · exact h.ranges r hr
  · obtain ⟨rfl, hready', hpages⟩ := hfresh hne
    have hready : s.vmm.ready := by
      by_contra hnot
      exact hrej (.inr (.inl hnot))
    refine ⟨h.aligned, hend.le, fun v hv => ?_, fun v hv => ?_, hW⟩
    · rw [vmmIsMapped_eq, if_pos ⟨hready, hv.1⟩, (hpages v hv).1]
      rfl
    · rw [vmmIsMapped_eq, if_pos ⟨hready', hv.1⟩, if_pos]
      exact Option.isSome_iff_ne_none.mpr (hpages v hv).2

/-- Mapping a page of the heap keeps the invariant. -/
theorem AreaInvariant.heap (h : AreaInvariant s P base) (hlow : 4096 < base) {v : U32}
    (hv : HeapMaps v) (heap : KernelHeap) :
    AreaInvariant ⟨(mapFreshPage P v s.vmm).1, heap, s.pages⟩ P base := by
  have hin : v.toNat < s.vmm.nextVaddr.toNat ∨ InKheap v := by
    rcases hv with hv | hv
    · exact .inr hv
    · have hb := h.base_le
      exact .inl (by omega)
  obtain ⟨vmm, phys, ok, hres, hext, harea, -⟩ := h.area.mapFresh le_rfl hin
  rw [hres]
  have hnext := hext.nextVaddr
  exact ⟨hnext ▸ harea, hnext ▸ h.base_le, hnext ▸ h.aligned, h.ranges⟩

/-- Returning a range keeps the invariant. -/
theorem AreaInvariant.free (h : AreaInvariant s P base) {p count : U32} (hp : (p, count) ∈ s.pages) :
    AreaInvariant ⟨vmmFreePages P p count s.vmm, s.heap, s.pages⟩ P base := by
  obtain ⟨halign, hb, hend, hW⟩ := h.ranges _ hp
  obtain ⟨harea, hnext⟩ := vmmFreePages_area h.area halign hb hend hW
  exact ⟨hnext ▸ harea, hnext ▸ h.base_le, hnext ▸ h.aligned, h.ranges⟩

/-- Without a watermark nothing is returned; with one, the invariant holds. -/
def AreaOrNone (s : KernelState σ) (P : LawfulPmm σ) : Prop :=
  (s.vmm.WellFormed P.InUse ∧ s.vmm.nextVaddr = 0#32 ∧ s.pages = []) ∨
    ∃ base, 4096 < base ∧ AreaInvariant s P base

/-- **One call with room** keeps this. -/
theorem kernelCall_area {s' : KernelState σ} {call : KernelCall} {answer : U32}
    (h : AreaOrNone s P) (hheap : s.heap.Sound) (hroom : InRoom s call)
    (hres : kernelCall P s call = some (s', answer)) : AreaOrNone s' P ∧ s'.heap.Sound := by
  -- a page that the heap maps
  have hmap : ∀ v heap, HeapMaps v →
      AreaOrNone ⟨(mapFreshPage P v s.vmm).1, heap, s.pages⟩ P := by
    intro v heap hv
    rcases h with ⟨hwf, hnext, hpages⟩ | ⟨base, hlow, harea⟩
    · obtain ⟨vmm, phys, ok, hmap, hwf', hext, -⟩ := mapFreshPage_spec hwf v
      rw [hmap]
      exact .inl ⟨hwf', hext.nextVaddr.trans hnext, hpages⟩
    · exact .inr ⟨base, hlow, harea.heap hlow hv heap⟩
  -- a call that leaves the page tables alone
  have hsame : ∀ heap, AreaOrNone ⟨s.vmm, heap, s.pages⟩ P := by
    intro heap
    rcases h with hnone | ⟨base, hlow, harea⟩
    · exact .inl hnone
    · exact .inr ⟨base, hlow, ⟨harea.area, harea.base_le, harea.aligned, harea.ranges⟩⟩
  cases call with
  | kmalloc size =>
    obtain ⟨hheap', hpages, hvmm⟩ := kmalloc_cases hheap hres
    obtain ⟨vmm, heap, pages⟩ := s'
    obtain rfl : pages = s.pages := hpages
    refine ⟨?_, hheap'⟩
    rcases hvmm with hvmm | ⟨v, hv, hvmm⟩
    · obtain rfl : vmm = s.vmm := hvmm
      exact hsame heap
    · obtain rfl : vmm = (mapFreshPage P v s.vmm).1 := hvmm
      exact hmap v heap hv
  | kfree ptr =>
    obtain ⟨hheap', hpages, hvmm⟩ := kfree_cases hheap hres
    obtain ⟨vmm, heap, pages⟩ := s'
    obtain rfl : pages = s.pages := hpages
    obtain rfl : vmm = s.vmm := hvmm
    exact ⟨hsame heap, hheap'⟩
  | allocPages count =>
    obtain ⟨vmm, p, halloc⟩ : ∃ vmm p, vmmAllocPages P count s.vmm = (vmm, p) := ⟨_, _, rfl⟩
    simp only [kernelCall, halloc] at hres
    obtain ⟨rfl, -⟩ := Prod.mk.inj (Option.some.inj hres)
    refine ⟨?_, hheap⟩
    rcases h with ⟨hwf, hnext, hpages⟩ | ⟨base, hlow, harea⟩
    · rw [vmmAllocPages_rejects (.inr (.inr (.inl hnext)))] at halloc
      obtain ⟨rfl, rfl⟩ := Prod.mk.inj halloc
      exact .inl ⟨hwf, hnext, hpages⟩
    · exact .inr ⟨base, hlow, (harea.alloc hroom halloc).1⟩
  | freePages vaddr count =>
    by_cases hheld : s.pages.contains (vaddr, count)
    · simp only [kernelCall, if_pos hheld] at hres
      obtain ⟨rfl, -⟩ := Prod.mk.inj (Option.some.inj hres)
      refine ⟨?_, hheap⟩
      have hmem := List.contains_iff_mem.mp hheld
      rcases h with ⟨-, -, hpages⟩ | ⟨base, hlow, harea⟩
      · rw [hpages] at hmem
        exact absurd hmem List.not_mem_nil
      · exact .inr ⟨base, hlow, harea.free hmem⟩
    · simp only [kernelCall, if_neg hheld] at hres
      obtain ⟨rfl, -⟩ := Prod.mk.inj (Option.some.inj hres)
      exact ⟨h, hheap⟩

end Area

/-! ### From the start on -/

section Runs
variable {σ : Type*} {P : LawfulPmm σ} {kernelEnd : U32} {table : U32 → U32 → U32} {pmm : σ}
  {backend : HeapBackend} {s₀ s : KernelState σ}

/-- The watermark as a number. The sum that is rounded up may wrap around. -/
theorem watermark_toNat {mapEnd x : U32}
    (hx : x = (kernelVirtOffset + mapEnd + 0x400000#32 - 1#32) &&& ~~~ (0x400000#32 - 1#32)) :
    x.toNat = (0xC0000000 + mapEnd.toNat + 0x3FFFFF) % 2 ^ 32 / 2 ^ 22 * 2 ^ 22 := by
  have hsum : (kernelVirtOffset + mapEnd + 0x400000#32 - 1#32).toNat =
      (0xC0000000 + mapEnd.toNat + 0x3FFFFF) % 2 ^ 32 := by
    unfold kernelVirtOffset
    bv_omega
  rw [hx, show 0x400000#32 - 1#32 = BitVec.ofNat 32 (2 ^ 22 - 1) from rfl,
    U32.toNat_and_not_low _ _ (by decide), hsum]

/-- **The watermark** is the end of the direct map rounded up to 4 MiB, or it wraps around to nothing. -/
theorem watermark_cases {mapEnd x : U32} (hmax : mapEnd.toNat ≤ 2 ^ 30)
    (hx : x = (kernelVirtOffset + mapEnd + 0x400000#32 - 1#32) &&& ~~~ (0x400000#32 - 1#32)) :
    x = 0#32 ∨ x.PageAligned ∧ kernelVirtOffset.toNat + mapEnd.toNat ≤ x.toNat := by
  have hoff : kernelVirtOffset.toNat = 0xC0000000 := rfl
  have hnat := watermark_toNat hx
  rcases Nat.lt_or_ge (0xC0000000 + mapEnd.toNat + 0x3FFFFF) (2 ^ 32) with hlt | hge
  · right
    rw [U32.pageAligned_iff]
    omega
  · left
    apply BitVec.eq_of_toNat_eq
    rw [hnat, show (0#32).toNat = 0 from rfl]
    omega

/-- The invariant holds after the start. -/
theorem kernelBoot_area (hboot : kernelBoot P kernelEnd table pmm backend = some s₀) :
    AreaOrNone s₀ P ∧ s₀.heap.Sound := by
  obtain ⟨t, hinit, rfl⟩ := kernelBoot_cases hboot
  obtain ⟨t', hinit', hwf, -, hready, hnot⟩ := vmmInit_boot P.lawful kernelEnd table pmm
  obtain rfl := Option.some.inj (hinit.symm.trans hinit')
  obtain ⟨hwf', -, -⟩ := vmmUnmapIdentity_spec hwf
  have hrest := (vmmUnmapIdentity_rest t).2.2.1
  have hbase : ∀ x : U32, kernelVirtOffset.toNat ≤ x.toNat → 4096 < x.toNat := by
    intro x hx
    exact (show 4096 < kernelVirtOffset.toNat by decide).trans_le hx
  -- before `kmalloc_init`
  have hstart : AreaOrNone ⟨vmmUnmapIdentity t, backend.static, []⟩ P := by
    by_cases hr : t.ready
    · obtain ⟨-, hnext⟩ := hready hr
      obtain ⟨-, hmax⟩ := vmmMapEnd_spec P.toPmmOps kernelEnd pmm
      rcases watermark_cases hmax hnext with hzero | ⟨halign, hge⟩
      · exact .inl ⟨hwf', hrest.trans hzero, rfl⟩
      -- only the direct map is mapped
      have hfront : ∀ v, v.PageAligned → (vmmUnmapIdentity t).translate v ≠ none →
          v.toNat < t.nextVaddr.toNat := by
        intro v hv hm
        rw [vmmInit_directMap P.lawful hinit hr hv] at hm
        split at hm
        · rename_i hin
          obtain ⟨hle, hlt⟩ := hin
          have hoff : kernelVirtOffset.toNat = 0xC0000000 := rfl
          rw [BitVec.lt_def, BitVec.toNat_sub_of_le hle, hoff] at hlt
          rw [hoff] at hge
          omega
        · exact absurd rfl hm
      have hnone : ∀ v f, v.PageAligned → t.nextVaddr.toNat ≤ v.toNat →
          (vmmUnmapIdentity t).translate v ≠ some f := by
        intro v f hv hle hf
        have := hfront v hv (by rw [hf]; simp)
        omega
      refine .inr ⟨t.nextVaddr.toNat, hbase _ ((Nat.le_add_right _ _).trans hge), ⟨⟨hwf', ?_, ?_, ?_⟩,
        hrest ▸ le_rfl, hrest ▸ halign, fun r hr => absurd hr List.not_mem_nil⟩⟩
      · intro v hv hm
        rw [show (vmmUnmapIdentity t).nextVaddr = t.nextVaddr from hrest]
        exact .inl (hfront v hv hm)
      · intro v f hv hb _ hf
        exact absurd hf (hnone v f hv hb)
      · intro v w f hv _ hb _ _ _ hf
        exact absurd hf (hnone v f hv hb)
    · exact .inl ⟨hwf', hrest.trans (hnot hr), rfl⟩
  -- `kmalloc_init` maps pages of the heap
  have hloop := kmallocInit_invariant
    (I := fun u => AreaOrNone ⟨u, backend.static, []⟩ P) hstart (by
      rintro v u hv - (⟨hwf, hnext, hpages⟩ | ⟨base, hlow, harea⟩)
      · obtain ⟨u', phys, ok, hmap, hwf', hext, -⟩ := mapFreshPage_spec hwf v
        rw [hmap]
        exact .inl ⟨hwf', hext.nextVaddr.trans hnext, hpages⟩
      · exact .inr ⟨base, hlow, harea.heap hlow (.inl hv) backend.static⟩)
    backend.static backend.static_sound
  refine ⟨?_, hloop.2⟩
  rcases hloop.1 with hnone | ⟨base, hlow, harea⟩
  · exact .inl hnone
  · exact .inr ⟨base, hlow, ⟨harea.area, harea.base_le, harea.aligned, harea.ranges⟩⟩

/-- **`vmm_alloc_pages` returns fresh ranges as long as it has room**: in every run from the start whose
requests each were turned away by a check or had room in front of the heap window or behind it, a
request of the same kind that is answered returns whole pages without wrap-around that were not mapped
and do not lie in the heap window. -/
theorem kernelMachine_fresh (hboot : kernelBoot P kernelEnd table pmm backend = some s₀)
    (hs : (kernelMachine P s₀).ReachableVia InRoom s) {count : U32}
    (hroom : InRoom s (.allocPages count)) {vmm : VmmState σ} {p : U32}
    (hres : vmmAllocPages P count s.vmm = (vmm, p)) (hp : p ≠ 0#32) :
    FreshRange s.vmm vmm p count := by
  have h := hs.invariant (I := fun s => AreaOrNone s P ∧ s.heap.Sound) (kernelBoot_area hboot)
    fun u u' call answer ⟨hu, hheap⟩ hcall hres => kernelCall_area hu hheap hcall hres
  rcases h.1 with ⟨-, hnext, -⟩ | ⟨base, -, harea⟩
  · rw [vmmAllocPages_rejects (.inr (.inr (.inl hnext)))] at hres
    exact absurd (Prod.mk.inj hres).2.symm hp
  · exact (harea.alloc hroom hres).2 hp

/-- With frames, a request is answered. -/
theorem vmmAllocPages_supplied {t : VmmState σ} {count : U32} (h : t.Supplied P (0 + count.toNat))
    (hready : t.ready) (hnext : t.nextVaddr.PageAligned) (hne : t.nextVaddr ≠ 0#32)
    (hcount : count ≠ 0#32) (hend : t.nextVaddr.toNat + count.toNat * 4096 < 2 ^ 32) :
    (vmmAllocPages P count t).2 = t.nextVaddr := by
  obtain ⟨t₁, ht₁⟩ : ∃ t₁ : VmmState σ,
      t₁ = { t with nextVaddr := t.nextVaddr + count * vmmPageSize } := ⟨_, rfl⟩
  have hsup : t₁.Supplied P (0 + count.toNat) := h.congr (by rw [ht₁]) (by rw [ht₁])
  obtain ⟨t', hloop, -⟩ := mapFreshPages_supplied hnext count.toNat (i := 0#32) hsup
  have htotal : ¬ count * vmmPageSize > 0xFFFFFFFF#32 - t.nextVaddr := by
    have hbytes : (count * vmmPageSize).toNat = count.toNat * 4096 := by
      rw [BitVec.toNat_mul, show vmmPageSize.toNat = 4096 from rfl]
      omega
    rw [gt_iff_lt, BitVec.lt_def, hbytes, BitVec.toNat_sub, BitVec.toNat_ofNat]
    omega
  have hcheck : ¬ (count = 0#32 ∨ ¬ t.ready ∨ t.nextVaddr = 0#32) := by simp [hready, hne, hcount]
  simp only [vmmAllocPages, if_neg hcheck, if_neg htotal, ← ht₁, hloop, if_true]

/-- The watermark after the start. -/
theorem kernelBoot_watermark (hboot : kernelBoot P kernelEnd table pmm backend = some s₀)
    (hready : s₀.vmm.ready) :
    s₀.vmm.nextVaddr = (kernelVirtOffset + vmmMapEnd P.toPmmOps kernelEnd pmm + 0x400000#32 - 1#32) &&&
      ~~~ (0x400000#32 - 1#32) := by
  obtain ⟨t, hinit, rfl⟩ := kernelBoot_cases hboot
  obtain ⟨t', hinit', hwf, -, hboot', -⟩ := vmmInit_boot P.lawful kernelEnd table pmm
  obtain rfl := Option.some.inj (hinit.symm.trans hinit')
  obtain ⟨hwf', -, -⟩ := vmmUnmapIdentity_spec hwf
  obtain ⟨-, hready', hnext', -⟩ := vmmUnmapIdentity_rest t
  obtain ⟨hstatic, hnext, -⟩ := kmallocInit_static hwf' backend.static_sound
  exact (hnext.trans hnext').trans (hboot' ((hstatic.trans hready').symm.trans hready)).2

/-- The end of the direct map after the start. -/
theorem kernelBoot_directMapEnd (hboot : kernelBoot P kernelEnd table pmm backend = some s₀)
    (hready : s₀.vmm.ready) :
    s₀.vmm.directMapEnd = kernelVirtOffset + vmmMapEnd P.toPmmOps kernelEnd pmm := by
  obtain ⟨t, hinit, rfl⟩ := kernelBoot_cases hboot
  obtain ⟨t', hinit', hwf, -⟩ := vmmInit_boot P.lawful kernelEnd table pmm
  obtain rfl := Option.some.inj (hinit.symm.trans hinit')
  obtain ⟨hwf', -, -⟩ := vmmUnmapIdentity_spec hwf
  obtain ⟨-, hready', -, hend', -⟩ := vmmUnmapIdentity_rest t
  obtain ⟨hstatic, -, hend⟩ := kmallocInit_static hwf' backend.static_sound
  exact (hend.trans hend').trans
    (vmmInit_directMapEnd P.lawful hinit ((hstatic.trans hready').symm.trans hready))

end Runs

end Microkernel.Kernel
