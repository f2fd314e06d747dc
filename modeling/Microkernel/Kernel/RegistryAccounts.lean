import Microkernel.Kernel.AreaAccount

/-! # Runs of the kernel with its registry

What `kmain` registers, which calls keep the registry in step with the page tables, and that it accounts
for every mapped page in the runs of such calls. A watermark that starts in the heap window shows what
goes wrong without the condition.

* **`bootAreas_covers`** — the areas that are registered at the start cover the first pages of the heap.
* **`KeepsAccount`** — the calls meant, as a condition on the state before each of them.
* **`registry_accounts`** — the result, for three backends of the registry and two of the heap: whatever
  backends are registered, a page that is mapped lies in a registered area.
-/

namespace Microkernel.Kernel

open Heap Vma Vmm

/-! ### The heap calls -/

section HeapCalls
variable {σ : Type*} {ρ : Type} {P : LawfulPmm σ} {B : VmaOps ρ} {room : ℕ}
  {R : RegistryRefinement B room} {name : NamePtr} {S₀ S : AreaSet} {k k' : RegisteredState σ ρ}
  {answer : U32}

/-- `kmalloc` leaves the ranges and the watermark alone. -/
theorem kmalloc_watermark {size : U32} {s s' : KernelState σ}
    (hres : kmalloc P size s = some (s', answer)) :
    s'.pages = s.pages ∧ s'.vmm.nextVaddr = s.vmm.nextVaddr := by
  unfold kmalloc at hres
  cases hheap : s.heap with
  | firstFit c =>
    rw [hheap] at hres
    obtain ⟨r, -, hr⟩ := Option.map_eq_some_iff.mp hres
    obtain ⟨rfl, -⟩ := Prod.mk.inj hr
    exact ⟨rfl, rfl⟩
  | slab c =>
    rw [hheap] at hres
    dsimp only at hres
    split at hres
    · exact absurd hres (by simp)
    · obtain ⟨r, -, hr⟩ := Option.map_eq_some_iff.mp hres
      obtain ⟨rfl, -⟩ := Prod.mk.inj hr
      refine ⟨rfl, ?_⟩
      show (slabRequestPage P size c.heap s.vmm).1.nextVaddr = s.vmm.nextVaddr
      unfold slabRequestPage
      split
      · rfl
      · split
        · exact mapFreshPage_nextVaddr _ _
        · rfl

/-- `kfree` leaves the page tables alone. -/
theorem kfree_vmm {ptr : U32} {s s' : KernelState σ} (hres : kfree ptr s = some (s', answer)) :
    s'.pages = s.pages ∧ s'.vmm = s.vmm := by
  unfold kfree at hres
  cases hheap : s.heap with
  | firstFit c =>
    rw [hheap] at hres
    obtain ⟨r, -, hr⟩ := Option.map_eq_some_iff.mp hres
    obtain ⟨rfl, -⟩ := Prod.mk.inj hr
    exact ⟨rfl, rfl⟩
  | slab c =>
    rw [hheap] at hres
    obtain ⟨r, -, hr⟩ := Option.map_eq_some_iff.mp hres
    obtain ⟨rfl, -⟩ := Prod.mk.inj hr
    exact ⟨rfl, rfl⟩

/-- `kmalloc` keeps the invariant when the page that it maps is covered from the start on. -/
theorem RegisteredState.Accounts.kmalloc (h : k.Accounts R name S₀ S) {size : U32}
    (hcover : ∀ v, heapRequest P size k.kernel = some v → AreaCovers S₀ v)
    (hres : registeredCall P B name k (.kmalloc size) = some (k', answer)) :
    k'.Accounts R name S₀ S := by
  obtain ⟨r, hcall, hr⟩ := Option.map_eq_some_iff.mp hres
  obtain ⟨rfl, -⟩ := Prod.mk.inj hr
  obtain ⟨hpages, hnext⟩ := kmalloc_watermark hcall
  exact h.heapStep hpages hnext fun v hv => hcover v (Option.mem_toList.mp hv)

/-- `kfree` keeps the invariant. -/
theorem RegisteredState.Accounts.kfree (h : k.Accounts R name S₀ S) {ptr : U32}
    (hres : registeredCall P B name k (.kfree ptr) = some (k', answer)) :
    k'.Accounts R name S₀ S := by
  obtain ⟨r, hcall, hr⟩ := Option.map_eq_some_iff.mp hres
  obtain ⟨rfl, -⟩ := Prod.mk.inj hr
  obtain ⟨hpages, hvmm⟩ := kfree_vmm hcall
  have hnone : ∀ v ∈ ([] : List U32), AreaCovers S₀ v := fun v hv => absurd hv List.not_mem_nil
  exact h.heapStep hpages (by rw [hvmm]) hnone

end HeapCalls

/-! ### The start -/

/-- The area that `kmain` registers for the direct map. -/
def directMapArea (names : AreaNames) (stop : U32) : VmArea :=
  ⟨kernelVirtOffset, stop, vmaRead ||| vmaWrite ||| vmaExec, names.directMap⟩

/-- The area that `kmain` registers for the heap. -/
def kheapArea (names : AreaNames) : VmArea :=
  ⟨kheapStart, kheapStart + kheapInitialPages * vmmPageSize, vmaRead ||| vmaWrite, names.kheap⟩

/-- The area of the heap is a valid one. -/
theorem kheapArea_valid (names : AreaNames) : (kheapArea names).Valid := by
  have hrange : kheapStart < kheapStart + kheapInitialPages * vmmPageSize ∧
      kheapStart.PageAligned ∧ (kheapStart + kheapInitialPages * vmmPageSize).PageAligned := by
    decide
  exact hrange

/-- What is registered after the start, for a direct map that ends at `stop`. -/
def bootAreas (names : AreaNames) (stop : U32) : AreaSet :=
  ((AreaSet.empty.add (directMapArea names stop)).1.add (kheapArea names)).1

/-- The direct map does not end inside the area of the heap. -/
def MapEndsOutside (stop : U32) : Prop :=
  ¬ (kheapStart < stop ∧ stop < kheapStart + kheapInitialPages * vmmPageSize)

/-- An area that is registered after an `add` was registered before or is the new one. -/
theorem mem_areas_add {S : AreaSet} {a b : VmArea} (h : b ∈ (S.add a).1.areas) :
    b = a ∨ b ∈ S.areas := by
  by_cases hadm : S.Admits a
  · rw [AreaSet.add_of_admits hadm] at h
    exact AreaSet.mem_insertList.mp h
  · rw [AreaSet.add_of_not_admits hadm] at h
    exact .inr h

/-- Two areas at most are registered at the start. -/
theorem mem_bootAreas {names : AreaNames} {stop : U32} {b : VmArea}
    (h : b ∈ (bootAreas names stop).areas) : b = directMapArea names stop ∨ b = kheapArea names := by
  rcases mem_areas_add h with rfl | h
  · exact .inr rfl
  · rcases mem_areas_add h with rfl | h
    · exact .inl rfl
    · exact absurd h List.not_mem_nil

/-- The boot registers two areas at most. -/
theorem length_bootAreas (names : AreaNames) (stop : U32) :
    (AreaSet.empty.add (directMapArea names stop)).1.areas.length ≤ 1 ∧
      (bootAreas names stop).areas.length ≤ 2 := by
  have hadd : ∀ (S : AreaSet) a, (S.add a).1.areas.length ≤ S.areas.length + 1 := by
    intro S a
    by_cases hadm : S.Admits a
    · rw [AreaSet.add_of_admits hadm]
      exact (AreaSet.length_insertList _ _).le
    · rw [AreaSet.add_of_not_admits hadm]
      exact Nat.le_succ _
  have hfirst := hadd .empty (directMapArea names stop)
  exact ⟨hfirst, (hadd _ _).trans (Nat.succ_le_succ hfirst)⟩

/-- **The first pages of the heap are covered**: by the area of the heap, or by the one of a direct map
that reaches beyond it. -/
theorem bootAreas_covers {names : AreaNames} {stop : U32} (hstop : MapEndsOutside stop) {i : ℕ}
    (hi : i < 16) :
    AreaCovers (bootAreas names stop) (kheapStart + BitVec.ofNat 32 i * vmmPageSize) := by
  have hend : (kheapStart + kheapInitialPages * vmmPageSize).toNat = 0xE0010000 := rfl
  have hpage : (kheapStart + BitVec.ofNat 32 i * vmmPageSize).toNat = 0xE0000000 + i * 4096 := by
    rw [BitVec.toNat_add, BitVec.toNat_mul, BitVec.toNat_ofNat,
      show kheapStart.toNat = 0xE0000000 from rfl, show vmmPageSize.toNat = 4096 from rfl]
    omega
  obtain ⟨S, hS⟩ : ∃ S, S = (AreaSet.empty.add (directMapArea names stop)).1 := ⟨_, rfl⟩
  have hlen := (length_bootAreas names stop).1
  rw [← hS] at hlen
  have hboot : bootAreas names stop = (S.add (kheapArea names)).1 := by rw [hS]; rfl
  by_cases hadm : S.Admits (kheapArea names)
  · refine ⟨kheapArea names, ?_, ?_, ?_⟩
    · rw [hboot, AreaSet.add_of_admits hadm]
      exact AreaSet.mem_insertList.mpr (.inl rfl)
    · show kheapStart ≤ _
      rw [BitVec.le_def, hpage]
      exact Nat.le_add_right _ _
    · show _ ≤ (kheapStart + kheapInitialPages * vmmPageSize).toNat
      omega
  · -- only the direct map can be in the way
    obtain ⟨b, hb, hov⟩ : ∃ b ∈ S.areas, (kheapArea names).Overlaps b := by
      by_contra hnone
      exact hadm ⟨hlen.trans_lt (by decide), kheapArea_valid names,
        fun b hb hov => hnone ⟨b, hb, hov⟩⟩
    obtain rfl : b = directMapArea names stop := by
      rw [hS] at hb
      exact (mem_areas_add hb).resolve_right List.not_mem_nil
    have hgt : kheapStart < stop := (VmArea.overlaps_iff.mp hov).1
    have hge : 0xE0010000 ≤ stop.toNat := by
      by_contra hnot
      refine hstop ⟨hgt, ?_⟩
      rw [BitVec.lt_def, hend]
      omega
    refine ⟨directMapArea names stop, ?_, ?_, ?_⟩
    · rw [hboot, AreaSet.add_of_not_admits hadm]
      exact hb
    · show kernelVirtOffset ≤ _
      rw [BitVec.le_def, hpage, show kernelVirtOffset.toNat = 0xC0000000 from rfl]
      omega
    · show _ ≤ stop.toNat
      omega

section Boot
variable {σ : Type*} {ρ : Type} {P : LawfulPmm σ} {B : VmaOps ρ} {room : ℕ}

/-- The pages that the loop of `kmalloc_init` maps are its own. -/
theorem mem_mappedPages {start v : U32} (n i : ℕ) {s : VmmState σ}
    (hv : v ∈ mappedPages P start n (BitVec.ofNat 32 i) s) :
    ∃ j, j < i + n ∧ v = start + BitVec.ofNat 32 j * vmmPageSize := by
  induction n generalizing i s with
  | zero => exact absurd hv List.not_mem_nil
  | succ n ih =>
    unfold mappedPages at hv
    dsimp only at hv
    split at hv
    · rcases List.mem_cons.mp hv with rfl | hv
      · exact ⟨i, by omega, rfl⟩
      · rw [show BitVec.ofNat 32 i + 1#32 = BitVec.ofNat 32 (i + 1) from
          (BitVec.ofNat_add i 1).symm] at hv
        obtain ⟨j, hj, rfl⟩ := ih (i + 1) hv
        exact ⟨j, by omega, rfl⟩
    · exact absurd hv List.not_mem_nil

/-- **The start with the registry**: the memory is as without it, and the registry holds the two areas as
far as they were admitted. -/
theorem kernelBootRegistered_spec (R : RegistryRefinement B room) (hroom : 2 ≤ room)
    (names : AreaNames) {kernelEnd : U32} {table : U32 → U32 → U32} {pmm : σ} {backend : HeapBackend}
    (state : ρ) {s₀ : KernelState σ} (hboot : kernelBoot P kernelEnd table pmm backend = some s₀) :
    ∃ k₀, kernelBootRegistered P B names kernelEnd table pmm backend state = some k₀ ∧
      k₀.kernel = s₀ ∧ s₀.pages = [] ∧ k₀.live = [] ∧ k₀.registry.ready = true ∧
      R.Rel k₀.registry.state (bootAreas names s₀.vmm.directMapEnd) ∧
      ∀ v ∈ k₀.heapPages, ∃ i < 16, v = kheapStart + BitVec.ofNat 32 i * vmmPageSize := by
  obtain ⟨t, hinit, rfl⟩ := Option.map_eq_some_iff.mp hboot
  obtain ⟨u, hu⟩ : ∃ u, u = kmallocInit P (vmmUnmapIdentity t) backend.static := ⟨_, rfl⟩
  have hlen := (length_bootAreas names u.1.directMapEnd).1
  obtain ⟨r₁, hadd₁, hrel₁⟩ := R.add (R.init state) (lt_of_lt_of_le Nat.zero_lt_two hroom)
    kernelVirtOffset u.1.directMapEnd (vmaRead ||| vmaWrite ||| vmaExec) names.directMap
  obtain ⟨r₂, hadd₂, hrel₂⟩ := R.add hrel₁ (lt_of_le_of_lt hlen hroom) kheapStart
    (kheapStart + kheapInitialPages * vmmPageSize) (vmaRead ||| vmaWrite) names.kheap
  refine ⟨⟨⟨u.1, u.2, []⟩, ⟨true, r₂⟩, [], mappedPages P kheapStart kheapInitialPages.toNat 0#32
    (vmmUnmapIdentity t)⟩, ?_, by rw [hu], rfl, rfl, rfl, by rw [← hu]; exact hrel₂, ?_⟩
  · unfold kernelBootRegistered
    rw [hinit, Option.bind_some]
    dsimp only
    rw [← hu]
    simp only [vmaInit, vmaAdd, not_true_eq_false, if_false, hadd₁, hadd₂, Option.map_some,
      Option.bind_some]
  · intro v hv
    obtain ⟨j, hj, rfl⟩ := mem_mappedPages 16 0 hv
    exact ⟨j, by omega, rfl⟩

/-- **The invariant holds after the start.** -/
theorem kernelBootRegistered_accounts (R : RegistryRefinement B room) (hroom : 2 ≤ room)
    {names : AreaNames} {kernelEnd : U32} {table : U32 → U32 → U32} {pmm : σ} {backend : HeapBackend}
    {state : ρ} {k₀ : RegisteredState σ ρ} (name : NamePtr)
    (hboot : kernelBootRegistered P B names kernelEnd table pmm backend state = some k₀)
    (hstop : MapEndsOutside k₀.kernel.vmm.directMapEnd) :
    k₀.Accounts R name (bootAreas names k₀.kernel.vmm.directMapEnd)
      (bootAreas names k₀.kernel.vmm.directMapEnd) := by
  obtain ⟨t, hinit, -⟩ := Option.bind_eq_some_iff.mp hboot
  obtain ⟨s₀, hs₀⟩ : ∃ s₀, kernelBoot P kernelEnd table pmm backend = some s₀ :=
    ⟨_, congrArg (Option.map _) hinit⟩
  obtain ⟨k₁, hboot₁, rfl, hpages, hlive, hready, hrel, hheap⟩ :=
    kernelBootRegistered_spec R hroom names state hs₀
  obtain rfl := Option.some.inj (hboot.symm.trans hboot₁)
  have haligned : k₀.kernel.vmm.nextVaddr.PageAligned := by
    rcases (kernelBoot_area hs₀).1 with ⟨-, hnext, -⟩ | ⟨base, -, harea⟩
    · rw [hnext]
      decide
    · exact harea.aligned
  refine ⟨hready, hrel, fun a ha => ha, by simp [hlive], by simp [hlive], fun v hv => ?_,
    by simp [hpages], by simp [hpages], by simp [hpages], haligned⟩
  obtain ⟨i, hi, rfl⟩ := hheap v hv
  exact bootAreas_covers hstop hi

end Boot

/-! ### Runs -/

section Runs
variable {σ : Type*} {P : LawfulPmm σ} {b : VmaBackend}

/-- **The calls that keep the account**, with `k₀` as the state after the start: a `kmalloc` that maps no
page outside the areas of the start, and a `vmm_alloc_pages` that fails, or whose range meets no registered
area while the backend has room. -/
def KeepsAccount (P : LawfulPmm σ) (b : VmaBackend) (k₀ k : RegisteredState σ b.State) :
    KernelCall → Prop
  | .kmalloc size => ∀ v, heapRequest P size k.kernel = some v → k₀.Registers b.ops v
  | .allocPages count =>
      (vmmAllocPages P count k.kernel.vmm).2 = 0#32 ∨ count.toNat * 4096 < 2 ^ 32 ∧
        b.ops.count k.registry.state < b.room ∧ ∀ x, k.kernel.vmm.nextVaddr ≤ x →
          x.toNat < k.kernel.vmm.nextVaddr.toNat + count.toNat * 4096 →
          vmaFind b.ops x k.registry = some none
  | _ => True

/-- **The registry accounts for every mapped page**: whatever the backends, when the direct map does not
end inside the area of the heap, then in every run of calls that keep the account each page that
`vmm_alloc_pages` or the heap has mapped and not released lies in a registered area, and `vma_find`
returns it. -/
theorem registry_accounts {names : AreaNames} {kernelEnd : U32} {table : U32 → U32 → U32} {pmm : σ}
    {backend : HeapBackend} {state : b.State} {k₀ k : RegisteredState σ b.State}
    (hboot : kernelBootRegistered P b.ops names kernelEnd table pmm backend state = some k₀)
    (hstop : MapEndsOutside k₀.kernel.vmm.directMapEnd)
    (hk : (registeredMachine P b.ops names.vmmAlloc k₀).ReachableVia (KeepsAccount P b k₀) k) {v : U32}
    (hv : k.Mapped v) : k.Registers b.ops v := by
  have h₀ := kernelBootRegistered_accounts b.refinement b.room_bounds.1 names.vmmAlloc hboot hstop
  obtain ⟨S₀, hS₀⟩ : ∃ S₀, S₀ = bootAreas names k₀.kernel.vmm.directMapEnd := ⟨_, rfl⟩
  rw [← hS₀] at h₀
  obtain ⟨S, h⟩ := hk.invariant
    (I := fun k => ∃ S, k.Accounts b.refinement names.vmmAlloc S₀ S) ⟨S₀, h₀⟩ (by
      rintro u u' call answer ⟨S, h⟩ hcond hres
      cases call with
      | kmalloc size =>
        exact ⟨S, h.kmalloc (fun v hv =>
          (registers_iff b.refinement h₀.ready h₀.rel).mp (hcond v hv)) hres⟩
      | kfree ptr => exact ⟨S, h.kfree (P := P) hres⟩
      | allocPages count => exact h.alloc b.room_bounds.2 hcond hres
      | freePages vaddr count => exact h.free hres)
  exact h.registers hv

end Runs

/-! ### Two starts -/

/-- The names by which the examples register areas. -/
def sampleNames : AreaNames := ⟨.str 0#32, .str 4#32, .str 8#32⟩

/-- A start with the sorted array and frames for `count` pages, for a direct map that ends at `stop`. -/
theorem kernelBootRegistered_sample (pages stop : U32) (count : ℕ) (hcount : count ≤ 2032)
    (hstop : kernelVirtOffset + vmmMapEnd (freeListPmm pages 0x100000#32).toPmmOps 0x200000#32
      sampleFrames = stop) :
    ∃ k₀, kernelBootRegistered (freeListPmm pages 0x100000#32) saOps sampleNames 0x200000#32
        (fun _ _ => 0#32) sampleFrames zeroBackend ⟨fun _ => .zero, 0⟩ = some k₀ ∧
      k₀.kernel.vmm.ready ∧ k₀.kernel.vmm.Supplied (freeListPmm pages 0x100000#32) count ∧
      k₀.kernel.vmm.directMapEnd = stop ∧
      k₀.kernel.vmm.nextVaddr = (stop + 0x400000#32 - 1#32) &&& ~~~ (0x400000#32 - 1#32) ∧
      k₀.registry.ready = true ∧
      (VmaBackend.refinement .sortedArray).Rel k₀.registry.state (bootAreas sampleNames stop) ∧
      k₀.kernel.vmm.Backed (freeListPmm pages 0x100000#32) sampleFrames kheapStart ∧
      k₀.kernel.heap = zeroBackend.static.init kheapStart (kheapInitialPages * vmmPageSize) := by
  have hsup := (sampleFrames_supplies pages 0x100000#32).mono (show 2064 + count ≤ 4096 by omega)
  obtain ⟨s₀, hboot, hready, hsupplied, hbacked, hheap⟩ := kernelBoot_supplied hsup 0x200000#32
    (fun _ _ => 0#32) zeroBackend
  have hend := (kernelBoot_directMapEnd hboot hready).trans hstop
  have hnext := kernelBoot_watermark hboot hready
  rw [hstop] at hnext
  obtain ⟨k₀, hboot₀, rfl, -, -, hr, hrel, -⟩ := kernelBootRegistered_spec
    (VmaBackend.refinement .sortedArray) (VmaBackend.room_bounds _).1 sampleNames ⟨fun _ => .zero, 0⟩
    hboot
  rw [hend] at hrel
  exact ⟨k₀, hboot₀, hready, hsupplied, hend, hnext, hr, hrel, hbacked, hheap⟩

/-- After a `vmm_alloc_pages(1)` below the heap. -/
theorem registry_accounts_low :
    ∃ k₀ k, kernelBootRegistered (freeListPmm 256#32 0x100000#32) saOps sampleNames 0x200000#32
        (fun _ _ => 0#32) sampleFrames zeroBackend ⟨fun _ => .zero, 0⟩ = some k₀ ∧
      (registeredMachine (freeListPmm 256#32 0x100000#32) saOps sampleNames.vmmAlloc k₀).Reachable k ∧
      k.Mapped 0xC1000000#32 ∧ k.Registers saOps 0xC1000000#32 := by
  obtain ⟨k₀, hboot, hready, hsup, hend, hnext, hr, hrel, -⟩ := kernelBootRegistered_sample
    256#32 0xC1000000#32 1 (by decide) rfl
  replace hnext : k₀.kernel.vmm.nextVaddr = 0xC1000000#32 := hnext
  have hp : (vmmAllocPages (freeListPmm 256#32 0x100000#32) 1#32 k₀.kernel.vmm).2 =
      k₀.kernel.vmm.nextVaddr :=
    vmmAllocPages_supplied hsup hready (by rw [hnext]; decide) (by rw [hnext]; decide) (by decide)
      (by rw [hnext]; decide)
  obtain ⟨s', p, halloc⟩ : ∃ s' p, vmmAllocPages (freeListPmm 256#32 0x100000#32) 1#32
      k₀.kernel.vmm = (s', p) := ⟨_, _, rfl⟩
  rw [halloc, hnext] at hp
  obtain rfl : p = 0xC1000000#32 := hp
  have hlen := (length_bootAreas sampleNames 0xC1000000#32).2.trans_lt (by decide : 2 < 256)
  obtain ⟨t, hcall, -⟩ := registeredCall_alloc sampleNames.vmmAlloc hr hrel hlen halloc (by decide)
  have hcond : KeepsAccount (freeListPmm 256#32 0x100000#32) .sortedArray k₀ k₀
      (.allocPages 1#32) := by
    refine .inr ⟨by decide, ?_, fun x hx hlt => ?_⟩
    · rw [(VmaBackend.refinement .sortedArray).count hrel]
      exact hlen
    · refine (vmaFind_eq (VmaBackend.refinement .sortedArray) hr hrel x).trans
        (congrArg some (AreaSet.find_eq_none_iff.mpr fun a ha ⟨hle, hgt⟩ => ?_))
      rw [hnext] at hx hlt
      rw [BitVec.le_def] at hx hle
      rw [BitVec.lt_def] at hgt
      rcases mem_bootAreas ha with rfl | rfl
      · exact absurd hgt (Nat.not_lt.mpr hx)
      · have hstart : (kheapArea sampleNames).start.toNat = 0xE0000000 := rfl
        have hsum : (0xC1000000#32).toNat + (1#32).toNat * 4096 = 0xC1001000 := rfl
        omega
  obtain ⟨k, hk⟩ : ∃ k : RegisteredState FreeFrames SaState, k = ⟨⟨s', k₀.kernel.heap,
      (0xC1000000#32, 1#32) :: k₀.kernel.pages⟩, ⟨k₀.registry.ready, t⟩,
      (0xC1000000#32, 1#32) :: k₀.live, k₀.heapPages⟩ := ⟨_, rfl⟩
  rw [← hk] at hcall
  have hreach : (registeredMachine (freeListPmm 256#32 0x100000#32) saOps sampleNames.vmmAlloc
      k₀).Reachable k := by
    refine ⟨[.allocPages 1#32], [0xC1000000#32], ?_⟩
    unfold Machine.run
    rw [Machine.runFrom_cons_of_step hcall]
    rfl
  have hmapped : k.Mapped 0xC1000000#32 := by
    rw [hk]
    exact .inr ⟨_, List.mem_cons_self, by decide, by decide, by decide⟩
  have hstop : MapEndsOutside k₀.kernel.vmm.directMapEnd := by
    rw [hend]
    exact fun hc => absurd hc.1 (by decide)
  exact ⟨k₀, k, hboot, hreach, hmapped,
    registry_accounts (b := .sortedArray) hboot hstop (.step .init hcond hcall) hmapped⟩

/-- When the direct map ends where the heap starts, a range of 17 pages from there on overlaps the area of
the heap, `vma_add` refuses it, and its last page is not accounted for. -/
theorem registry_misses :
    ¬ ∀ (P : LawfulPmm FreeFrames) (b : VmaBackend) names kernelEnd table pmm backend (state : b.State)
      k₀ k v, kernelBootRegistered P b.ops names kernelEnd table pmm backend state = some k₀ →
      (registeredMachine P b.ops names.vmmAlloc k₀).Reachable k → k.Mapped v →
      k.Registers b.ops v := by
  intro hall
  obtain ⟨k₀, hboot, hready, hsup, -, hnext, hr, hrel, -⟩ := kernelBootRegistered_sample
    0x1FF00#32 0xE0000000#32 17 (by decide) rfl
  replace hnext : k₀.kernel.vmm.nextVaddr = 0xE0000000#32 := hnext
  have hp : (vmmAllocPages (freeListPmm 0x1FF00#32 0x100000#32) 17#32 k₀.kernel.vmm).2 =
      k₀.kernel.vmm.nextVaddr :=
    vmmAllocPages_supplied hsup hready (by rw [hnext]; decide) (by rw [hnext]; decide) (by decide)
      (by rw [hnext]; decide)
  obtain ⟨s', p, halloc⟩ : ∃ s' p, vmmAllocPages (freeListPmm 0x1FF00#32 0x100000#32) 17#32
      k₀.kernel.vmm = (s', p) := ⟨_, _, rfl⟩
  rw [halloc, hnext] at hp
  obtain rfl : p = 0xE0000000#32 := hp
  have hlen := (length_bootAreas sampleNames 0xE0000000#32).2.trans_lt (by decide : 2 < 256)
  obtain ⟨t, hcall, hrel'⟩ := registeredCall_alloc sampleNames.vmmAlloc hr hrel hlen halloc (by decide)
  -- the area of the heap is in the way
  rw [AreaSet.add_of_not_admits (by decide)] at hrel'
  obtain ⟨k, hk⟩ : ∃ k : RegisteredState FreeFrames SaState, k = ⟨⟨s', k₀.kernel.heap,
      (0xE0000000#32, 17#32) :: k₀.kernel.pages⟩, ⟨k₀.registry.ready, t⟩,
      (0xE0000000#32, 17#32) :: k₀.live, k₀.heapPages⟩ := ⟨_, rfl⟩
  rw [← hk] at hcall
  have hreach : (registeredMachine (freeListPmm 0x1FF00#32 0x100000#32) saOps sampleNames.vmmAlloc
      k₀).Reachable k := by
    refine ⟨[.allocPages 17#32], [0xE0000000#32], ?_⟩
    unfold Machine.run
    rw [Machine.runFrom_cons_of_step hcall]
    rfl
  have hmapped : k.Mapped 0xE0010000#32 := by
    rw [hk]
    exact .inr ⟨_, List.mem_cons_self, by decide, by decide, by decide⟩
  have hreg := hall _ .sortedArray _ _ _ _ _ _ k₀ k 0xE0010000#32 hboot hreach hmapped
  have hready' : k.registry.ready = true := by
    rw [hk]
    exact hr
  have hrel'' : (VmaBackend.refinement .sortedArray).Rel k.registry.state
      (bootAreas sampleNames 0xE0000000#32) := by
    rw [hk]
    exact hrel'
  obtain ⟨a, ha, -, hstop⟩ := (registers_iff (VmaBackend.refinement .sortedArray) hready' hrel'').mp hreg
  rcases mem_bootAreas ha with rfl | rfl
  · exact absurd hstop (by decide)
  · exact absurd hstop (by decide)

end Microkernel.Kernel
