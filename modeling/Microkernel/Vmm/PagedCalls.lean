import Microkernel.Vmm.PagedTables

/-! # `vmm_init` and its later calls over physical memory

`vmm_init` builds the tables under the boot directory, which leads to every frame below 1 GiB. Once `CR3`
is loaded the tables are reached through themselves: the pointer to a page table leads to its frame as long
as the direct map has that frame.

* **`PagedMemory.Implements.initLoop`** and **`vmmInit_implements`** carry `vmm_init` over.
* **`PagedMemory.ReachesFor`** is what a later call needs, and **`vmmCalls_implements`** carries over runs
  of calls that meet it.
* **`VmmState.Anchored`**: the page tables are in frames that the direct map has, so that calls which leave
  the direct map alone meet it. -/

namespace Microkernel.Vmm

open Function (update)
open Paging (pageOf offsetOf dirIndex Translation Access Event Mmu)

/-! ### What a mapping takes -/

section Steps
variable {σ : Type*} {ops : PmmOps σ} {s : VmmState σ}

/-- The page tables after `vmm_ensure_page_table` are those from before and, when there was none, the frame
that it was given. -/
theorem vmmEnsurePageTable_isTable {InUse : σ → U32 → Prop} (hops : ops.Lawful InUse) (i : U32) {f : U32}
    (hf : (vmmEnsurePageTable ops i s).1.IsTable f) :
    s.IsTable f ∨ ¬ IsPresent (s.pd i) ∧ (ops.allocPage s.pmm).1 ≠ 0#32 ∧ f = (ops.allocPage s.pmm).1 := by
  have hfresh := hops.fresh s.pmm
  obtain ⟨j, hj⟩ := hf
  unfold vmmEnsurePageTable at hj
  dsimp only at hj
  split at hj
  · exact .inl ⟨j, hj⟩
  rename_i hnone
  split at hj
  · exact .inl ⟨j, hj⟩
  · rename_i hnull
    dsimp only at hj
    rw [Function.update_apply] at hj
    split at hj
    · rw [entryTarget_table (hfresh hnull).1] at hj
      exact .inr ⟨hnone, hnull, (Option.some.inj hj).symm⟩
    · exact .inl ⟨j, hj⟩

/-- The same for `vmm_map_page`. -/
theorem vmmMapPage_isTable {InUse : σ → U32 → Prop} (hops : ops.Lawful InUse) {virt phys flags f : U32}
    (hf : (vmmMapPage ops virt phys flags s).1.IsTable f) :
    s.IsTable f ∨ ¬ IsPresent (s.pd (pdIndex virt)) ∧ (ops.allocPage s.pmm).1 ≠ 0#32 ∧
      f = (ops.allocPage s.pmm).1 := by
  unfold vmmMapPage at hf
  split at hf
  · exact .inl hf
  refine vmmEnsurePageTable_isTable hops (pdIndex virt) ?_
  dsimp only at hf
  split at hf
  · exact hf
  · obtain ⟨j, hj⟩ := hf
    refine ⟨j, ?_⟩
    split at hj
    · dsimp only at hj
      rw [Function.update_apply] at hj
      split at hj
      · rename_i hji
        rw [entryTarget_user] at hj
        rw [hji]
        exact hj
      · exact hj
    · exact hj

/-- The allocator after `vmm_map_page`: at most one frame was requested. -/
theorem vmmMapPage_pmm (virt phys flags : U32) :
    (vmmMapPage ops virt phys flags s).1.pmm = s.pmm ∨
      (vmmMapPage ops virt phys flags s).1.pmm = (ops.allocPage s.pmm).2 := by
  have hens : (vmmEnsurePageTable ops (pdIndex virt) s).1.pmm = s.pmm ∨
      (vmmEnsurePageTable ops (pdIndex virt) s).1.pmm = (ops.allocPage s.pmm).2 := by
    unfold vmmEnsurePageTable
    dsimp only
    split
    · exact .inl rfl
    split
    · exact .inr rfl
    · exact .inr rfl
  unfold vmmMapPage
  split
  · exact .inl rfl
  dsimp only
  split
  · exact hens
  split
  · exact hens
  · exact hens

end Steps

/-! ### `vmm_init` -/

section Init
variable {σ : Type*} {ops : PmmOps σ} {InUse : σ → U32 → Prop} {m : PagedMemory σ} {s s' : VmmState σ}
  {All : Prop} {I : VmmState σ → Prop} {mapEnd : U32}

/-- **The tables while they are built**: the boot directory is in use, and they are in frames that it
leads to. -/
structure VmmState.UnderBoot (s : VmmState σ) (InUse : σ → U32 → Prop) : Prop where
  wellFormed : s.WellFormed InUse
  openDirectory : s.OpenDirectory
  notReady : s.ready = false
  tables : ∀ f, s.IsTable f → f.toNat < 2 ^ 30

/-- A mapping under the boot directory. -/
theorem PagedMemory.Implements.mapUnderBoot (h : m.Implements All s) (hops : ops.Lawful InUse)
    (hboot : s.UnderBoot InUse) (hlow : (ops.allocPage s.pmm).1.toNat < 2 ^ 30) {virt phys flags : U32}
    {r : Int} (hmap : vmmMapPage ops virt phys flags s = (s', r)) :
    ∃ m', InMemory.vmmMapPage ops virt phys flags m = some (m', r) ∧ m'.Implements All s' ∧
      s'.UnderBoot InUse := by
  have hready : m.ready = false := h.ready.trans hboot.notReady
  have hreach : m.ReachesTable ops (pdIndex virt) := by
    unfold PagedMemory.ReachesTable
    rw [h.pd, h.pmm]
    split
    · rename_i hpde
      -- the table that is there is one of those below 1 GiB
      exact PagedMemory.reaches_of_boot hready (entryFrame_aligned _) (hboot.tables _ ⟨_, if_pos hpde⟩)
    · exact fun hne => PagedMemory.reaches_of_boot hready (hops.fresh _ hne).1 hlow
  obtain ⟨m', hres, himpl, -⟩ := h.mapPage hops hboot.wellFormed hboot.openDirectory phys flags
    fun _ _ => hreach
  obtain ⟨s₁, r₁, hmap₁, hwf, hext, -⟩ := vmmMapPage_spec hops hboot.wellFormed virt phys flags
  obtain ⟨rfl, rfl⟩ := Prod.mk.inj (hmap₁.symm.trans hmap)
  have hopen := hboot.openDirectory.mapPage hops virt phys flags
  have htables := fun f => @vmmMapPage_isTable _ _ s _ hops virt phys flags f
  rw [hmap] at hres himpl hopen htables
  refine ⟨m', hres, himpl, hwf, hopen, hext.ready.trans hboot.notReady, fun f hf => ?_⟩
  rcases htables f hf with hf | ⟨-, -, rfl⟩
  · exact hboot.tables f hf
  · exact hlow

/-- One round of the mapping loop. -/
theorem vmmInitLoop_round {n : ℕ} {addr : U32} {s₁ s₂ : VmmState σ} {r₁ r₂ : Int} (hlt : addr < mapEnd)
    (h₁ : vmmMapPage ops addr addr (ptePresent ||| pteWritable) s = (s₁, r₁))
    (h₂ : vmmMapPage ops (addr + kernelVirtOffset) addr (ptePresent ||| pteWritable) s₁ = (s₂, r₂)) :
    vmmInitLoop ops mapEnd (n + 1) addr s =
      if r₁ ≠ 0 then some (s₁, false)
      else if r₂ ≠ 0 then some (s₂, false)
      else vmmInitLoop ops mapEnd n (addr + vmmPageSize) s₂ := by
  rw [vmmInitLoop]
  simp only [if_pos hlt, h₁, h₂]

/-- The same in the memory. -/
theorem InMemory.vmmInitLoop_round {n : ℕ} {addr : U32} {m₁ m₂ : PagedMemory σ} {r₁ r₂ : Int}
    (hlt : addr < mapEnd)
    (h₁ : InMemory.vmmMapPage ops addr addr (ptePresent ||| pteWritable) m = some (m₁, r₁))
    (h₂ : InMemory.vmmMapPage ops (addr + kernelVirtOffset) addr (ptePresent ||| pteWritable) m₁ =
      some (m₂, r₂)) :
    InMemory.vmmInitLoop ops mapEnd (n + 1) addr m =
      if r₁ ≠ 0 then some (m₁, false)
      else if r₂ ≠ 0 then some (m₂, false)
      else InMemory.vmmInitLoop ops mapEnd n (addr + vmmPageSize) m₂ := by
  rw [InMemory.vmmInitLoop]
  simp only [if_pos hlt, h₁, h₂, Option.bind_some]

/-- **The mapping loop** builds the same tables in the memory, as long as the frames that it is given lie
below 1 GiB. -/
theorem PagedMemory.Implements.initLoop (hops : ops.Lawful InUse)
    (hmap : ∀ s addr virt, I s → addr.PageAligned → addr < mapEnd →
      virt = addr ∨ virt = addr + kernelVirtOffset →
        I (vmmMapPage ops virt addr (ptePresent ||| pteWritable) s).1)
    (hlow : ∀ s, I s → (ops.allocPage s.pmm).1.toNat < 2 ^ 30) (n : ℕ) {addr : U32} {ok : Bool}
    (haddr : addr.PageAligned) (hI : I s) (h : m.Implements All s) (hboot : s.UnderBoot InUse)
    (hres : vmmInitLoop ops mapEnd n addr s = some (s', ok)) :
    ∃ m', InMemory.vmmInitLoop ops mapEnd n addr m = some (m', ok) ∧ m'.Implements All s' := by
  induction n generalizing addr s m with
  | zero => exact absurd hres (by simp [vmmInitLoop])
  | succ n ih =>
    by_cases hlt : addr < mapEnd
    · have hI₁ := hmap s addr addr hI haddr hlt (.inl rfl)
      obtain ⟨s₁, r₁, hmap₁⟩ :
          ∃ s₁ r₁, vmmMapPage ops addr addr (ptePresent ||| pteWritable) s = (s₁, r₁) :=
        ⟨_, _, Prod.mk.eta.symm⟩
      rw [hmap₁] at hI₁
      have hI₂ := hmap s₁ addr (addr + kernelVirtOffset) hI₁ haddr hlt (.inr rfl)
      obtain ⟨s₂, r₂, hmap₂⟩ : ∃ s₂ r₂, vmmMapPage ops (addr + kernelVirtOffset) addr
          (ptePresent ||| pteWritable) s₁ = (s₂, r₂) := ⟨_, _, Prod.mk.eta.symm⟩
      rw [hmap₂] at hI₂
      obtain ⟨m₁, hres₁, h₁, hboot₁⟩ := h.mapUnderBoot hops hboot (hlow s hI) hmap₁
      obtain ⟨m₂, hres₂, h₂, hboot₂⟩ := h₁.mapUnderBoot hops hboot₁ (hlow s₁ hI₁) hmap₂
      rw [vmmInitLoop_round hlt hmap₁ hmap₂] at hres
      rw [InMemory.vmmInitLoop_round hlt hres₁ hres₂]
      split at hres
      · rename_i hfail
        rw [if_pos hfail]
        obtain ⟨rfl, rfl⟩ := Prod.mk.inj (Option.some.inj hres)
        -- the lower mapping fails
        exact ⟨m₁, rfl, h₁⟩
      rename_i hdone
      rw [if_neg hdone]
      split at hres
      · rename_i hfail
        rw [if_pos hfail]
        obtain ⟨rfl, rfl⟩ := Prod.mk.inj (Option.some.inj hres)
        -- the upper one does
        exact ⟨m₂, rfl, h₂⟩
      · rename_i hdone
        rw [if_neg hdone]
        -- both are made, on to the next page
        refine ih ?_ hI₂ h₂ hboot₂ hres
        rw [U32.pageAligned_iff] at haddr ⊢
        unfold vmmPageSize
        bv_omega
    · unfold vmmInitLoop at hres
      unfold InMemory.vmmInitLoop
      rw [if_neg hlt] at hres ⊢
      obtain ⟨rfl, rfl⟩ := Prod.mk.inj (Option.some.inj hres)
      exact ⟨m, rfl, h⟩

/-- The words of the frames, under the pointers to them. -/
def frameTable (frames : BitVec 20 → BitVec 10 → BitVec 32) : U32 → U32 → U32 :=
  fun v k => frames (pageOf (virtToPhys v)) (k.setWidth 10)

/-- Before `vmm_init`. -/
theorem static_implements (frames : BitVec 20 → BitVec 10 → BitVec 32) (pmm : σ) :
    (PagedMemory.static frames pmm).Implements All (vmmStatic (frameTable frames) pmm) :=
  ⟨rfl, rfl, rfl, rfl, rfl, ((PagedMemory.static frames pmm).implements_view All).words⟩

/-- The directory has been cleared. -/
theorem vmmCleared_underBoot (table : U32 → U32 → U32) (pmm : σ) :
    (vmmCleared table pmm).UnderBoot InUse := by
  have hnone : ∀ i, ¬ IsPresent ((vmmCleared table pmm).pd i) := by
    intro i
    rw [vmmCleared_pd]
    decide
  refine ⟨(vmmCleared_spec InUse table pmm).1, fun i hi => absurd hi (hnone i), rfl, ?_⟩
  rintro f ⟨i, hi⟩
  rw [vmmCleared_pd, entryTarget_zero] at hi
  exact absurd hi (by simp)

/-- **`vmm_init`** builds the same tables in the memory, as long as the frames that it is given lie below
1 GiB. -/
theorem vmmInit_implements (hops : ops.Lawful InUse) {kernelEnd : U32}
    {frames : BitVec 20 → BitVec 10 → BitVec 32} {pmm : σ}
    (hmap : ∀ s addr virt, I s → addr.PageAligned → addr < vmmMapEnd ops kernelEnd pmm →
      virt = addr ∨ virt = addr + kernelVirtOffset →
        I (vmmMapPage ops virt addr (ptePresent ||| pteWritable) s).1)
    (hlow : ∀ s, I s → (ops.allocPage s.pmm).1.toNat < 2 ^ 30)
    (hI : I (vmmCleared (frameTable frames) pmm))
    (hinit : vmmInit ops kernelEnd (vmmStatic (frameTable frames) pmm) = some s) :
    ∃ m, InMemory.vmmInit ops kernelEnd (.static frames pmm) = some m ∧ m.Implements All s ∧
      (m.ready → m.events = []) := by
  obtain ⟨s₁, ok, hloop, hcase⟩ := vmmInit_cases hinit
  obtain ⟨m₀, hm₀⟩ : ∃ m₀ : PagedMemory σ, m₀ = { PagedMemory.static frames pmm with
      pd := memzeroPage (PagedMemory.static frames pmm).pd 1024 } := ⟨_, rfl⟩
  have h₀ : m₀.Implements All (vmmCleared (frameTable frames) pmm) := by
    have hstatic := (@static_implements _ All) frames pmm
    rw [hm₀]
    refine ⟨rfl, rfl, rfl, rfl, rfl, fun f k hf => hstatic.words f k (hf.imp_right ?_)⟩
    rintro ⟨i, hi⟩
    rw [vmmCleared_pd, entryTarget_zero] at hi
    exact absurd hi (by simp)
  obtain ⟨m₁, hres, h₁⟩ := PagedMemory.Implements.initLoop hops hmap hlow (2 ^ 20) (by decide) hI h₀
    (vmmCleared_underBoot _ pmm) hloop
  have hrun : InMemory.vmmInit ops kernelEnd (.static frames pmm) =
      some (if ¬ ok then m₁ else { m₁ with
        ready := true
        events := []
        nextVaddr := (kernelVirtOffset + vmmMapEnd ops kernelEnd pmm + 0x400000#32 - 1#32) &&&
          ~~~ (0x400000#32 - 1#32)
        directMapEnd := kernelVirtOffset + vmmMapEnd ops kernelEnd pmm }) := by
    unfold InMemory.vmmInit
    dsimp only
    rw [← hm₀, show (PagedMemory.static frames pmm).pmm = pmm from rfl, hres]
    rfl
  refine ⟨_, hrun, ?_⟩
  rcases hcase with ⟨rfl, rfl⟩ | ⟨rfl, rfl⟩
  · -- some page could not be mapped
    have hnot : ¬ m₁.ready := by
      obtain ⟨s', ok', hloop', -, hext, -⟩ := vmmInitLoop_boot hops kernelEnd (frameTable frames) pmm
      obtain ⟨rfl, -⟩ := Prod.mk.inj (Option.some.inj (hloop'.symm.trans hloop))
      rw [h₁.ready, hext.ready]
      exact Bool.false_ne_true
    exact ⟨h₁, fun hr => absurd hr hnot⟩
  · exact ⟨⟨h₁.pd, rfl, rfl, rfl, h₁.pmm, h₁.words⟩, fun _ => rfl⟩

end Init

/-! ### A direct map that has the page tables -/

section Anchored
variable {σ : Type*} {ops : PmmOps σ} {InUse : σ → U32 → Prop} {m : PagedMemory σ} {s s' : VmmState σ}
  {All : Prop} {D : U32 → Prop} {f i virt : U32}

/-- **The page tables are in frames that the direct map has**: `D` are frames that `PHYS_TO_VIRT` leads
to. -/
structure VmmState.Anchored (s : VmmState σ) (InUse : σ → U32 → Prop) (D : U32 → Prop) : Prop where
  wellFormed : s.WellFormed InUse
  openDirectory : s.OpenDirectory
  ready : s.ready
  tables : ∀ f, s.IsTable f → D f
  direct : ∀ f, f.PageAligned → D f → s.translate (physToVirt f) = some f

/-- The frames that the allocator gives are such. -/
def Gives (ops : PmmOps σ) (D : U32 → Prop) (p : σ) : Prop :=
  (ops.allocPage p).1 ≠ 0#32 → D (ops.allocPage p).1

/-- The frames of the direct map are reached in memory. -/
theorem VmmState.Anchored.reaches (h : s.Anchored InUse D) (hm : m.Implements All s) (hf : f.PageAligned)
    (hD : D f) : m.Reaches f :=
  hm.reaches h.openDirectory hf h.ready (h.direct f hf hD)

/-- Every page table is reached. -/
theorem VmmState.Anchored.reachesEntry (h : s.Anchored InUse D) (hm : m.Implements All s)
    (hi : IsPresent (m.pd i)) : m.Reaches (entryFrame (m.pd i)) := by
  rw [hm.pd] at hi ⊢
  exact h.reaches hm (entryFrame_aligned _) (h.tables _ ⟨i, if_pos hi⟩)

/-- And so is a new one. -/
theorem VmmState.Anchored.reachesTable (h : s.Anchored InUse D) (hm : m.Implements All s)
    (hops : ops.Lawful InUse) (hgives : ¬ IsPresent (s.pd i) → Gives ops D s.pmm) :
    m.ReachesTable ops i := by
  unfold PagedMemory.ReachesTable
  split
  · rename_i hi
    exact h.reachesEntry hm hi
  · rename_i hi
    rw [hm.pd] at hi
    rw [hm.pmm]
    exact fun hne => h.reaches hm (hops.fresh _ hne).1 (hgives hi hne)

/-- **Mapping a page** of another part of the address space. -/
theorem VmmState.Anchored.mapPage (h : s.Anchored InUse D) (hops : ops.Lawful InUse)
    (hgives : ¬ IsPresent (s.pd (pdIndex virt)) → Gives ops D s.pmm) (hout : ∀ f, D f → physToVirt f ≠ virt)
    {phys flags : U32} {r : Int}
    (hres : vmmMapPage ops virt phys flags s = (s', r)) : s'.Anchored InUse D := by
  obtain ⟨s₁, r₁, hmap, hwf, hext, hcase⟩ := vmmMapPage_spec hops h.wellFormed virt phys flags
  obtain ⟨rfl, rfl⟩ := Prod.mk.inj (hmap.symm.trans hres)
  have hopen := h.openDirectory.mapPage hops virt phys flags
  have htables := fun f => @vmmMapPage_isTable _ _ s _ hops virt phys flags f
  rw [hmap] at hopen htables
  refine ⟨hwf, hopen, hext.ready.trans h.ready, fun f hf => ?_, fun f hf hD => ?_⟩
  · rcases htables f hf with hf | ⟨hnone, hne, rfl⟩
    · exact h.tables f hf
    · exact hgives hnone hne
  · rcases hcase with ⟨-, htrans⟩ | ⟨-, -, htrans⟩
    · rw [htrans]
      exact h.direct f hf hD
    · -- the page is not one of the direct map
      rw [htrans _ (physToVirt_aligned hf), if_neg (hout f hD)]
      exact h.direct f hf hD

/-- **Unmapping a page** of another part of the address space. -/
theorem VmmState.Anchored.unmapPage (h : s.Anchored InUse D) (hout : ∀ f, D f → physToVirt f ≠ virt) :
    (vmmUnmapPage virt s).Anchored InUse D := by
  obtain ⟨hwf, hready, htrans⟩ := vmmUnmapPage_spec h.wellFormed virt
  have hpd : (vmmUnmapPage virt s).pd = s.pd := by
    unfold vmmUnmapPage
    split
    · rfl
    · dsimp only
      split <;> rfl
  refine ⟨hwf, h.openDirectory.unmapPage virt, hready.trans h.ready, fun f ⟨j, hj⟩ => ?_,
    fun f hf hD => ?_⟩
  · rw [hpd] at hj
    exact h.tables f ⟨j, hj⟩
  · rw [htrans _ (physToVirt_aligned hf), if_neg (hout f hD)]
    exact h.direct f hf hD

/-- **Unmapping the lower part**, when the frames lie below 1 GiB. -/
theorem VmmState.Anchored.unmapIdentity (h : s.Anchored InUse D) (hD : ∀ f, D f → f.toNat < 2 ^ 30) :
    (vmmUnmapIdentity s).Anchored InUse D := by
  obtain ⟨hwf, hready, htrans⟩ := vmmUnmapIdentity_spec h.wellFormed
  refine ⟨hwf, h.openDirectory.unmapIdentity, hready.trans h.ready, fun f ⟨j, hj⟩ => ?_,
    fun f hf hf' => ?_⟩
  · rw [vmmUnmapIdentity_target hj] at hj
    exact h.tables f ⟨j, hj⟩
  · -- the pointers to the frames do not wrap
    have hhigh : ¬ physToVirt f < kernelVirtOffset := by
      have hlt := hD f hf'
      rw [BitVec.lt_def]
      unfold physToVirt kernelVirtOffset
      bv_omega
    rw [htrans h.ready, if_neg hhigh]
    exact h.direct f hf hf'

/-- The page tables of `vmm_init` are in frames that the allocator gave. -/
theorem vmmInit_tables {J : σ → Prop} (hops : ops.Lawful InUse)
    (hJ : ∀ p, J p → Gives ops D p ∧ J (ops.allocPage p).2) {kernelEnd : U32} {table : U32 → U32 → U32}
    {p : σ} (hp : J p) (hinit : vmmInit ops kernelEnd (vmmStatic table p) = some s) :
    J s.pmm ∧ ∀ f, s.IsTable f → D f := by
  obtain ⟨s₁, ok, hloop, hcase⟩ := vmmInit_cases hinit
  have h₁ : J s₁.pmm ∧ ∀ f, s₁.IsTable f → D f := by
    refine vmmInitLoop_invariant (I := fun s => J s.pmm ∧ ∀ f, s.IsTable f → D f)
      (fun s addr virt hs _ _ _ => ⟨?_, fun f hf => ?_⟩) _ (by decide) ⟨hp, fun f hf => ?_⟩ hloop
    · rcases (@vmmMapPage_pmm _ ops s) virt addr (ptePresent ||| pteWritable) with heq | heq
      · rw [heq]
        exact hs.1
      · rw [heq]
        exact (hJ _ hs.1).2
    · -- a new table is in the frame that the allocator gave
      rcases vmmMapPage_isTable hops hf with hf | ⟨-, hne, rfl⟩
      · exact hs.2 f hf
      · exact (hJ _ hs.1).1 hne
    · obtain ⟨i, hi⟩ := hf
      rw [vmmCleared_pd, entryTarget_zero] at hi
      exact absurd hi (by simp)
  rcases hcase with ⟨-, rfl⟩ | ⟨-, rfl⟩
  · exact h₁
  · exact h₁

/-- **After `vmm_init`** the direct map has the page tables, when they are in frames below its end. -/
theorem vmmInit_anchored (hops : ops.Lawful InUse) {kernelEnd : U32} {table : U32 → U32 → U32} {p : σ}
    (hD : ∀ f, D f → f < vmmMapEnd ops kernelEnd p)
    (hinit : vmmInit ops kernelEnd (vmmStatic table p) = some s) (hready : s.ready)
    (htables : ∀ f, s.IsTable f → D f) : s.Anchored InUse D := by
  have hopen := (vmmInit_kernelOnly hops hinit).directory
  obtain ⟨s', hinit', hwf, hboot⟩ := vmmInit_spec hops kernelEnd table p
  obtain rfl := Option.some.inj (hinit.symm.trans hinit')
  obtain ⟨-, hmax⟩ := vmmMapEnd_spec ops kernelEnd p
  refine ⟨hwf, hopen, hready, htables, fun f hf hf' => ?_⟩
  have hlt := hD f hf'
  have hnat : (physToVirt f).toNat = f.toNat + 0xC0000000 := by
    rw [BitVec.lt_def] at hlt
    unfold physToVirt kernelVirtOffset
    bv_omega
  have hback : physToVirt f - kernelVirtOffset = f := BitVec.add_sub_cancel ..
  rw [hboot hready _ (physToVirt_aligned hf)]
  unfold FlatMap.boot
  rw [if_neg, if_pos, hback]
  · rw [hback, BitVec.le_def, hnat]
    exact ⟨Nat.le_add_left _ _, hlt⟩
  · rw [BitVec.lt_def, hnat]
    omega

end Anchored

/-! ### Later calls -/

/-- **What a call needs**: the pointer to the page table that it uses leads to the frame, and the pointer
to the frame that it is given for a new one. -/
def PagedMemory.ReachesFor (m : PagedMemory Frames) : VmmCall → Prop
  | .map virt phys _ source => virt.PageAligned → phys.PageAligned →
      PagedMemory.ReachesTable framesOps (pdIndex virt) { m with pmm := { m.pmm with source := source } }
  | .unmap virt => virt.PageAligned → IsPresent (m.pd (pdIndex virt)) →
      m.Reaches (entryFrame (m.pd (pdIndex virt)))
  | .unmapIdentity => True

/-- One call, with `0` for the calls that return nothing. -/
def InMemory.vmmCall (m : PagedMemory Frames) : VmmCall → Option (PagedMemory Frames × Int)
  | .map virt phys flags source =>
      InMemory.vmmMapPage framesOps virt phys flags { m with pmm := { m.pmm with source := source } }
  | .unmap virt => (InMemory.vmmUnmapPage virt m).map (·, 0)
  | .unmapIdentity => some (InMemory.vmmUnmapIdentity m, 0)

/-- The virtual memory manager over physical memory, as a machine. -/
def InMemory.vmmMachine (m : PagedMemory Frames) : Machine (PagedMemory Frames) VmmCall Int :=
  ⟨m, InMemory.vmmCall⟩

section Calls
variable {m m₀ : PagedMemory Frames} {s s₀ s' : VmmState Frames} {space : AddressSpace} {All : Prop}

/-- One call does the same in the memory, with the same answer. -/
theorem vmmCall_implements (h : m.Implements All s) (hs : s.Shows space) {call : VmmCall}
    (hreach : m.ReachesFor call) {answer : Int} (hres : vmmCall s call = (s', answer)) :
    ∃ m', InMemory.vmmCall m call = some (m', answer) ∧ m'.Implements All s' ∧
      m'.events = m.events ++ vmmCallEvents s call := by
  cases call with
  | map virt phys flags source =>
    obtain ⟨hwf, hopen, -⟩ := hs.readable
    -- the source of the call replaces the one before
    have hpmm : ({ m.pmm with source := source } : Frames) = { s.pmm with source := source } := by
      rw [h.pmm]
    have hmap : vmmMapPage framesOps virt phys flags
        { s with pmm := { m.pmm with source := source } } = (s', answer) := by
      rw [hpmm]
      exact hres
    obtain ⟨m', hmap', himpl, hevents⟩ := (h.request { m.pmm with source := source }).mapPage
      framesOps_lawful ⟨fun i f hf => hpmm ▸ hwf.inUse i f hf, hwf.injective⟩ hopen phys flags hreach
    rw [hmap] at himpl hmap'
    refine ⟨m', hmap', himpl, hevents.trans ?_⟩
    rw [hpmm]
    rfl
  | unmap virt =>
    obtain ⟨rfl, rfl⟩ := Prod.mk.inj hres
    obtain ⟨m', hunmap, himpl, hevents⟩ := h.unmapPage hreach
    exact ⟨m', congrArg (Option.map _) hunmap, himpl, hevents⟩
  | unmapIdentity =>
    obtain ⟨rfl, rfl⟩ := Prod.mk.inj hres
    exact ⟨_, rfl, h.unmapIdentity⟩

/-- **A run of calls** does the same in the memory, when each call finds its page table. -/
theorem vmmCalls_implements (calls : List VmmCall) (h : m.Implements All s) (hs : s.Shows space)
    (hready : s.ready) (hmeets : (InMemory.vmmMachine m₀).Meets PagedMemory.ReachesFor m calls)
    {answers : List Int} (hrun : (vmmMachine s₀).runFrom s calls = some (s', answers)) :
    ∃ m', (InMemory.vmmMachine m₀).runFrom m calls = some (m', answers) ∧ m'.Implements All s' ∧
      m'.events = m.events ++ vmmCallsEvents s calls := by
  induction calls generalizing m s space answers with
  | nil =>
    obtain ⟨rfl, rfl⟩ := Prod.mk.inj (Option.some.inj hrun)
    exact ⟨m, rfl, h, (List.append_nil _).symm⟩
  | cons call calls ih =>
    obtain ⟨hreach, hrest⟩ := hmeets
    obtain ⟨s₁, answer, hres, hready₁, hs₁⟩ := vmmCall_shows hs hready call
    rw [Machine.runFrom_cons_of_step (M := vmmMachine s₀) (congrArg some hres)] at hrun
    obtain ⟨⟨s'', answers'⟩, hrun', heq⟩ := Option.map_eq_some_iff.mp hrun
    obtain ⟨rfl, rfl⟩ := Prod.mk.inj heq
    -- one call, and then the rest
    obtain ⟨m₁, hres₁, h₁, hevents₁⟩ := vmmCall_implements h hs hreach hres
    obtain ⟨m', hrun₁, h', hevents'⟩ := ih h₁ hs₁ hready₁ (hrest m₁ answer hres₁) hrun'
    refine ⟨m', ?_, h', ?_⟩
    · rw [Machine.runFrom_cons_of_step (M := InMemory.vmmMachine m₀) hres₁, hrun₁]
      rfl
    · unfold vmmCallsEvents
      rw [hevents', hevents₁, hres, List.append_assoc]

/-- `vmm_init` over any source of frames below 1 GiB. -/
theorem framesInit_implements (kernelEnd : U32) (frames : BitVec 20 → BitVec 10 → BitVec 32) {p : Frames}
    (hlow : ∀ used, (p.source.next used).toNat < 2 ^ 30) :
    ∃ m₀ s₀, vmmInit framesOps kernelEnd (vmmStatic (frameTable frames) p) = some s₀ ∧
      InMemory.vmmInit framesOps kernelEnd (.static frames p) = some m₀ ∧ m₀.Implements All s₀ ∧
      (m₀.ready → m₀.events = []) := by
  obtain ⟨s₀, hinit, -, -⟩ := vmmInit_spec framesOps_lawful kernelEnd (frameTable frames) p
  obtain ⟨m₀, hinit', h, hevents⟩ := (@vmmInit_implements _ _ _ _ All)
    (I := fun s => ∀ used, (s.pmm.source.next used).toNat < 2 ^ 30) framesOps_lawful
    (fun s addr virt hs _ _ _ used => by
      rcases (@vmmMapPage_pmm _ framesOps s) virt addr (ptePresent ||| pteWritable) with hp | hp
      · rw [hp]
        exact hs used
      · rw [hp]
        exact hs used)
    (fun s hs => hs _) hlow hinit
  exact ⟨m₀, s₀, hinit, hinit', h, hevents⟩

/-- A call that leaves the pointers to these frames alone, and is given no other ones. -/
def VmmCall.Spares (D : U32 → Prop) : VmmCall → Prop
  | .map virt _ _ source =>
      (∀ f, D f → physToVirt f ≠ virt) ∧ ∀ used, source.next used ≠ 0#32 → D (source.next used)
  | .unmap virt => ∀ f, D f → physToVirt f ≠ virt
  | .unmapIdentity => True

/-- **Calls that leave the direct map alone** always find their page tables, when the allocator only gives
frames that the direct map has. -/
theorem vmmCalls_meet {D : U32 → Prop} (h : m₀.Implements All s₀) (hs : s₀.Shows space)
    (hanchored : s₀.Anchored FramesInUse D) (hD : ∀ f, D f → f.toNat < 2 ^ 30) (calls : List VmmCall)
    (hcalls : ∀ call ∈ calls, call.Spares D) :
    (InMemory.vmmMachine m₀).Meets PagedMemory.ReachesFor m₀ calls := by
  refine Machine.Meets.of_invariant
    (I := fun m => ∃ s space, PagedMemory.Implements All m s ∧ s.Shows space ∧ s.Anchored FramesInUse D)
    (fun m call ⟨s, space, h, hs, hanchored⟩ hspares => ?_) calls hcalls ⟨s₀, space, h, hs, hanchored⟩
  -- before the call its table is reached
  have hreach : m.ReachesFor call := by
    cases call with
    | map virt phys flags source =>
      have hanchored' : VmmState.Anchored { s with pmm := { m.pmm with source := source } } FramesInUse D :=
        ⟨⟨fun i f hf => h.pmm ▸ hanchored.wellFormed.inUse i f hf, hanchored.wellFormed.injective⟩,
          hanchored.openDirectory, hanchored.ready, hanchored.tables, hanchored.direct⟩
      exact fun _ _ => hanchored'.reachesTable (h.request _) framesOps_lawful fun _ => hspares.2 _
    | unmap virt => exact fun _ hi => hanchored.reachesEntry h hi
    | unmapIdentity => trivial
  refine ⟨hreach, fun m' answer hres => ?_⟩
  obtain ⟨s', answer', hcall, -, hs'⟩ := vmmCall_shows hs hanchored.ready call
  obtain ⟨m'', hres', h', -⟩ := vmmCall_implements h hs hreach hcall
  obtain ⟨rfl, -⟩ := Prod.mk.inj (Option.some.inj (hres'.symm.trans hres))
  -- and after it the direct map still has the tables
  refine ⟨s', _, h', hs', ?_⟩
  cases call with
  | map virt phys flags source =>
    have hanchored' : VmmState.Anchored { s with pmm := { s.pmm with source := source } } FramesInUse D :=
      ⟨⟨hanchored.wellFormed.inUse, hanchored.wellFormed.injective⟩,
        hanchored.openDirectory, hanchored.ready, hanchored.tables, hanchored.direct⟩
    exact hanchored'.mapPage framesOps_lawful (fun _ => hspares.2 _) hspares.1 hcall
  | unmap virt =>
    obtain ⟨rfl, -⟩ := Prod.mk.inj hcall
    exact hanchored.unmapPage hspares
  | unmapIdentity =>
    obtain ⟨rfl, -⟩ := Prod.mk.inj hcall
    exact hanchored.unmapIdentity hD

end Calls

/-! ### An allocator -/

/-- The source of frames as a physical allocator. -/
def framesPmm : LawfulPmm Frames where
  toPmmOps := framesOps
  freePage f p := { p with used := p.used.filter (· ≠ f) }
  InUse := FramesInUse
  lawful := framesOps_lawful
  free_mono p f g hf _ hne := List.mem_filter.mpr ⟨hf, by simpa using hne⟩

/-- The first frame of the sample that is not in use. -/
def sampleSource : FrameSource where
  next used := (sampleList.find? fun f => ! used.contains f).getD 0#32
  fresh used hne := by
    cases hfind : sampleList.find? fun f => ! used.contains f with
    | none =>
      rw [hfind] at hne
      exact absurd rfl hne
    | some f =>
      have hmem := List.mem_of_find?_eq_some hfind
      have hnot := List.find?_some hfind
      rw [Option.getD_some]
      exact ⟨(mem_sampleList hmem).1, by simpa using hnot⟩

/-- A frame given is one of the sample. -/
theorem sampleSource_next (used : List U32) (hne : sampleSource.next used ≠ 0#32) :
    sampleSource.next used ∈ sampleList := by
  unfold sampleSource at hne ⊢
  dsimp only at hne ⊢
  cases hfind : sampleList.find? fun f => ! used.contains f with
  | none =>
    rw [hfind] at hne
    exact absurd rfl hne
  | some f => exact List.mem_of_find?_eq_some hfind

/-- Nothing in use, on a machine with 32 MiB. -/
def sampleSupply : Frames := ⟨[], sampleSource, 0x1F00#32, 0x100000#32⟩

theorem sampleSupply_source : sampleSupply.source = sampleSource := by rw [sampleSupply]

/-- There is a frame as long as fewer are in use than the sample has. -/
theorem sampleSource_ne {used : List U32} (h : used.length < 4096) : sampleSource.next used ≠ 0#32 := by
  obtain ⟨f, hf, hnot⟩ : ∃ f ∈ sampleList, f ∉ used := by
    by_contra hall
    push Not at hall
    have hnodup : sampleList.Nodup := sampleFrames_frames ▸ sampleFrames.nodup
    have hle := (hnodup.subperm hall).length_le
    rw [sampleList_length] at hle
    omega
  unfold sampleSource
  dsimp only
  cases hfind : sampleList.find? fun f => ! used.contains f with
  | none => exact absurd (List.find?_eq_none.mp hfind f hf) (by simpa using hnot)
  | some g =>
    obtain ⟨-, hge, -⟩ := mem_sampleList (List.mem_of_find?_eq_some hfind)
    rintro rfl
    exact absurd hge (by decide)

/-- The sample supplies as many frames as are not yet in use. -/
theorem sampleSource_supplies (k : ℕ) {p : Frames} (hsource : p.source = sampleSource)
    (h : p.used.length + k ≤ 4096) : framesPmm.Supplies k p := by
  induction k generalizing p with
  | zero => trivial
  | succ k ih =>
    have hnext : (framesPmm.allocPage p).1 = sampleSource.next p.used := hsource ▸ rfl
    have hne := @sampleSource_ne p.used (by omega)
    obtain ⟨-, hge, hlt⟩ := mem_sampleList (sampleSource_next p.used hne)
    refine ⟨hnext ▸ hne, ?_, ih hsource ?_⟩
    · rw [hnext]
      unfold physToVirt kernelVirtOffset
      bv_omega
    · show (p.source.next p.used :: p.used).length + k ≤ 4096
      rw [List.length_cons]
      omega

/-- The frames of the sample are below the end of the direct map. -/
theorem sampleSource_lt (used : List U32) : sampleSource.next used < 0x2000000#32 := by
  by_cases hne : sampleSource.next used = 0#32
  · rw [hne]
    decide
  · have hlt := (mem_sampleList (sampleSource_next used hne)).2.2
    bv_omega

/-- Every frame that it gives lies below 1 GiB. -/
theorem sampleSupply_low (used : List U32) : (sampleSupply.source.next used).toNat < 2 ^ 30 := by
  have hlt := sampleSource_lt used
  rw [sampleSupply_source]
  bv_omega

/-- A user page behind the direct map is mapped and unmapped, and the lower part is taken away. -/
def sampleCalls : List VmmCall :=
  [.map 0xC2000000#32 0x1800000#32 7#32 sampleSource, .unmapIdentity, .unmap 0xC2000000#32]

/-- `vmm_init` has enough frames, and the calls find their page tables. -/
theorem sampleInit {m₀ : PagedMemory Frames}
    (hinit : InMemory.vmmInit framesOps 0x200000#32 (.static (fun _ _ => 0#32) sampleSupply) = some m₀) :
    m₀.ready ∧ (InMemory.vmmMachine m₀).Meets PagedMemory.ReachesFor m₀ sampleCalls := by
  have hbelow : ∀ f : U32, f < 0x2000000#32 → f.toNat < 2 ^ 30 := fun f hf => by bv_omega
  obtain ⟨m', s₀, hinit₀, hinit', h₀, -⟩ := (@framesInit_implements True) 0x200000#32
    (fun _ _ => 0#32) sampleSupply_low
  obtain rfl := Option.some.inj (hinit'.symm.trans hinit)
  have hsupplies : framesPmm.Supplies (2048 + 0) sampleSupply := by
    refine sampleSource_supplies _ sampleSupply_source ?_
    have hused : sampleSupply.used = [] := by rw [sampleSupply]
    rw [hused, List.length_nil]
    omega
  obtain ⟨s, hinit₁, hready, -⟩ := vmmInit_supplied hsupplies 0x200000#32 (frameTable fun _ _ => 0#32)
  obtain rfl := Option.some.inj (hinit₁.symm.trans hinit₀)
  have hend : vmmMapEnd framesOps 0x200000#32 sampleSupply = 0x2000000#32 := by decide
  -- whatever is in use, the next frame is one of the sample
  have hgives : ∀ p : Frames, p.source = sampleSource →
      Gives framesOps (fun f => f < 0x2000000#32) p ∧ (framesOps.allocPage p).2.source = sampleSource := by
    intro p hp
    refine ⟨fun _ => ?_, hp⟩
    show p.source.next p.used < _
    rw [hp]
    exact sampleSource_lt p.used
  obtain ⟨-, htables⟩ := vmmInit_tables (J := fun p => p.source = sampleSource) framesOps_lawful hgives
    sampleSupply_source hinit₀
  have hanchored := vmmInit_anchored framesOps_lawful (fun f hf => hend.symm ▸ hf) hinit₀ hready htables
  refine ⟨h₀.ready.trans hready, vmmCalls_meet h₀ (vmmInit_shows hinit₀ hready) hanchored hbelow _ ?_⟩
  have hout : ∀ f : U32, f < 0x2000000#32 → physToVirt f ≠ 0xC2000000#32 := by
    intro f hf
    unfold physToVirt kernelVirtOffset
    bv_omega
  intro call hcall
  simp only [sampleCalls, List.mem_cons, List.not_mem_nil, or_false] at hcall
  rcases hcall with rfl | rfl | rfl
  · exact ⟨hout, fun used _ => sampleSource_lt used⟩
  · trivial
  · exact hout

/-! ### What the processor finds -/

/-- **The processor reads what `vmm.c` means.** Whatever the kernel image, the memory and the source of
frames below 1 GiB, when `vmm_init` had enough of them, then after any calls whose pointers to page tables
lead to their frames the processor's walk of the memory gives for every page the frame of its last mapping
with the rights of that mapping's flags, and nothing for a page that is not mapped; and a read in ring 0 of
any address reaches it in the frame that `vmm_get_physical` gives for its page, or faults for want of a
translation when it gives none. -/
theorem processor_reads_mappings (kernelEnd : U32) (frames : BitVec 20 → BitVec 10 → BitVec 32) (p : Frames)
    (hlow : ∀ used, (p.source.next used).toNat < 2 ^ 30) (calls : List VmmCall) :
    ∃ m₀, InMemory.vmmInit framesOps kernelEnd (.static frames p) = some m₀ ∧ (m₀.ready →
      (InMemory.vmmMachine m₀).Meets PagedMemory.ReachesFor m₀ calls →
      ∃ m answers, (InMemory.vmmMachine m₀).run calls = some (m, answers) ∧
        (∀ page, m.tables.walk page =
          (AddressSpace.boot (vmmMapEnd framesOps kernelEnd p)).run calls answers page) ∧
        ∀ wp (a : Access), a.write = false → a.user = false →
          (IsPresent (m.pd (pdIndex a.address)) → m.Reaches (entryFrame (m.pd (pdIndex a.address)))) →
          ∃ phys, InMemory.vmmGetPhysical (pageAddr (pageOf a.address)) m = some phys ∧
            a.outcome wp (m.tables.walk (pageOf a.address)) =
              phys.elim (.faults 0#32) fun f => .reaches (f + (offsetOf a.address).setWidth 32)) := by
  obtain ⟨m₀, s₀, hinit, hinit', h₀, -⟩ := (@framesInit_implements True) kernelEnd frames hlow
  refine ⟨m₀, hinit', fun hready hmeets => ?_⟩
  have hready₀ : s₀.ready := h₀.ready ▸ hready
  have hs₀ := vmmInit_shows hinit hready₀
  obtain ⟨s, answers, hrun, hready', hs⟩ := vmmMachine_shows hs₀ hready₀ calls
  obtain ⟨m, hrun', h, -⟩ := vmmCalls_implements calls h₀ hs₀ hready₀ hmeets hrun
  refine ⟨m, answers, hrun', fun page => (h.walk page).trans (hs.walk page),
    fun wp a hwrite huser hreach => ?_⟩
  have hindex : pdIndex (pageAddr (pageOf a.address)) = pdIndex a.address := by
    rw [pdIndex_eq, pdIndex_eq, pageOf_pageAddr]
  rw [h.walk]
  exact ⟨_, h.getPhysical (hindex.symm ▸ hreach), hs.read hready' wp hwrite huser⟩

/-- A machine with 32 MiB. -/
theorem processor_reads_mappings_sample :
    ∃ m₀ m answers,
      InMemory.vmmInit framesOps 0x200000#32 (.static (fun _ _ => 0#32) sampleSupply) = some m₀ ∧
      (InMemory.vmmMachine m₀).run sampleCalls = some (m, answers) ∧
      ∀ page, m.tables.walk page =
        (AddressSpace.boot (vmmMapEnd framesOps 0x200000#32 sampleSupply)).run sampleCalls answers page := by
  obtain ⟨m₀, hinit, hrest⟩ := processor_reads_mappings 0x200000#32 (fun _ _ => 0#32) sampleSupply
    sampleSupply_low sampleCalls
  obtain ⟨hready, hmeets⟩ := sampleInit hinit
  obtain ⟨m, answers, hrun, hwalk, -⟩ := hrest hready hmeets
  exact ⟨m₀, m, answers, hinit, hrun, hwalk⟩

/-- **No stale translation.** Whatever the kernel image, the memory and the source of frames below 1 GiB,
when `vmm_init` had enough of them: let the processor load the new directory, and then cache and drop
translations and directory entries at any moments between the writes and invalidations of any calls whose
pointers to page tables lead to their frames. When the calls have returned, every access uses the
translation that the flags and frame of the last mapping give, whether cached or not; and at every moment
within one more such call the same holds for all pages but those of the call. -/
theorem no_stale_translation (kernelEnd : U32) (frames : BitVec 20 → BitVec 10 → BitVec 32) (p : Frames)
    (hlow : ∀ used, (p.source.next used).toNat < 2 ^ 30) (calls : List VmmCall) (call : VmmCall) :
    ∃ m₀, InMemory.vmmInit framesOps kernelEnd (.static frames p) = some m₀ ∧ (m₀.ready →
      (InMemory.vmmMachine m₀).Meets PagedMemory.ReachesFor m₀ (calls ++ [call]) →
      ∃ m answers m' answer, (InMemory.vmmMachine m₀).run calls = some (m, answers) ∧
        InMemory.vmmCall m call = some (m', answer) ∧
        ∀ mmu : Mmu, mmu.tables.table = m₀.frames →
        ∀ events written, m.events ++ written <+: m'.events →
          events.filter Event.byProgram = m.events ++ written →
        ∀ page r, written = [] ∨ page ∉ call.pages →
          ((mmu.step (.switch m₀.tables.dir)).run events).Uses page r →
            r = (AddressSpace.boot (vmmMapEnd framesOps kernelEnd p)).run calls answers page) := by
  obtain ⟨m₀, s₀, hinit, hinit', h₀, hempty⟩ := (@framesInit_implements True) kernelEnd frames hlow
  refine ⟨m₀, hinit', fun hready hmeets => ?_⟩
  have hready₀ : s₀.ready := h₀.ready ▸ hready
  have hs₀ := vmmInit_shows hinit hready₀
  obtain ⟨s, answers, hrun, hready', hs⟩ := vmmMachine_shows hs₀ hready₀ calls
  obtain ⟨m, hrun', h, hevents⟩ := vmmCalls_implements calls h₀ hs₀ hready₀ hmeets.of_append hrun
  obtain ⟨s', answer, hres, -, -⟩ := vmmCall_shows hs hready' call
  obtain ⟨m', hres', -, hevents'⟩ := vmmCall_implements h hs (hmeets.last hrun') hres
  refine ⟨m, answers, m', answer, hrun', hres',
    fun mmu hmmu events written hwritten hfilter page r hpage hr => ?_⟩
  rw [hevents', List.prefix_append_right_inj] at hwritten
  rw [hevents, hempty hready, List.nil_append] at hfilter
  -- after the load of `CR3` nothing of the old directory is left
  have hswitch : (mmu.step (.switch m₀.tables.dir)).At s₀.tables ∅ := by
    refine ⟨?_, Mmu.agrees_of_nil rfl rfl⟩
    rw [← h₀.tables]
    show Paging.Tables.mk m₀.tables.dir mmu.tables.table = m₀.tables
    rw [hmmu]
    rfl
  have halways := vmmCalls_always calls hs₀ hready₀ hrun hswitch
  obtain ⟨before, after, rfl, hbefore, hafter⟩ := List.filter_eq_append_iff.mp hfilter
  -- the last call starts with nothing but current translations
  have hat := (halways before).2 hbefore
  rw [Mmu.run_append] at hr
  rw [← hs.walk page]
  rcases hpage with rfl | hpage
  · exact (hat.run hafter).uses (Set.notMem_empty page) hr
  · exact ((vmmCall_always hs hready' call hat) after).1 (hafter ▸ hwritten) page hpage r hr

/-- On the same machine, after the user page has been mapped and the lower part taken away: while the page
is unmapped every other page, and afterwards each page, has its last mapping. -/
theorem no_stale_translation_sample :
    ∃ m₀ m answers m' answer,
      InMemory.vmmInit framesOps 0x200000#32 (.static (fun _ _ => 0#32) sampleSupply) = some m₀ ∧
      (InMemory.vmmMachine m₀).run sampleCalls.dropLast = some (m, answers) ∧
      InMemory.vmmCall m (.unmap 0xC2000000#32) = some (m', answer) ∧
      ∀ mmu : Mmu, mmu.tables.table = m₀.frames →
      ∀ events written, m.events ++ written <+: m'.events →
        events.filter Event.byProgram = m.events ++ written →
      ∀ page r, written = [] ∨ page ∉ (VmmCall.unmap 0xC2000000#32).pages →
        ((mmu.step (.switch m₀.tables.dir)).run events).Uses page r →
          r = (AddressSpace.boot (vmmMapEnd framesOps 0x200000#32 sampleSupply)).run sampleCalls.dropLast
            answers page := by
  obtain ⟨m₀, hinit, hrest⟩ := no_stale_translation 0x200000#32 (fun _ _ => 0#32) sampleSupply
    sampleSupply_low sampleCalls.dropLast (.unmap 0xC2000000#32)
  obtain ⟨hready, hmeets⟩ := sampleInit hinit
  obtain ⟨m, answers, m', answer, hrun, hcall, hstale⟩ := hrest hready hmeets
  exact ⟨m₀, m, answers, m', answer, hinit, hrun, hcall, hstale⟩

end Microkernel.Vmm
