import Microkernel.Lib.Machine
import Microkernel.Vmm.Translation

/-! # The page tables implement a flat map

The purpose of the virtual memory manager is a partial map from pages to frames. `vmm_init` builds the
identity map and the direct map, and every later call makes one change to the map, or none.

* **`FrameSource`, `Frames`** — the physical allocator of such a run: any function that gives frames which
  are not in use.
* **`vmmMapEnd_toNat`** — where the mapped range ends.
* **`vmmInit_boot`, `vmmInit_directMap`** — what `vmm_init` leaves of it.
* **`vmm_refines_flatMap`** — the refinement, over all calls, those that are rejected among them.
-/

namespace Microkernel.Vmm

open Function (update)

/-! ### The physical allocator -/

/-- Where frames come from: given the frames in use, the address of another one, or `NULL`. -/
structure FrameSource where
  /-- The answer to a request. -/
  next : List U32 → U32
  fresh : ∀ used, next used ≠ 0#32 → (next used).PageAligned ∧ next used ∉ used

/-- A physical allocator that gives frames that are not in use. -/
structure Frames where
  /-- The frames in use. -/
  used : List U32
  /-- Where the next frame comes from. -/
  source : FrameSource
  /-- `pmm_total_pages`. -/
  totalPages : U32
  /-- `pmm_managed_base`. -/
  managedBase : U32

/-- Its operations. -/
def framesOps : PmmOps Frames where
  allocPage p := (p.source.next p.used, { p with used := p.source.next p.used :: p.used })
  totalPages p := p.totalPages
  managedBase p := p.managedBase

/-- The sample allocator gives frames that were not in use. -/
theorem framesOps_lawful : framesOps.Lawful fun p f => f ∈ p.used where
  mono _ _ hf := List.mem_cons_of_mem _ hf
  fresh p hne := by
    obtain ⟨halign, hnew⟩ := p.source.fresh p.used hne
    exact ⟨halign, hnew, List.mem_cons_self⟩

/-! ### Flat maps -/

/-- A partial map from pages to frames. -/
abbrev FlatMap := U32 → Option U32

namespace FlatMap

/-- Map a page; an entry without the present bit maps it to nothing. -/
def map (m : FlatMap) (virt phys flags : U32) : FlatMap :=
  update m virt (if IsPresent flags then some phys else none)

/-- Unmap a page. -/
def unmap (m : FlatMap) (virt : U32) : FlatMap := update m virt none

/-- Unmap everything below the high half. -/
def unmapIdentity (m : FlatMap) : FlatMap := fun v => if v < kernelVirtOffset then none else m v

/-- The identity map of the pages below `mapEnd`, and the same pages in the high half. -/
def boot (mapEnd : U32) : FlatMap := fun v =>
  if v < mapEnd then some v
  else if kernelVirtOffset ≤ v ∧ v - kernelVirtOffset < mapEnd then some (v - kernelVirtOffset)
  else none

/-- Two more pages. -/
theorem boot_succ {a v : U32} (ha : a.PageAligned) (hv : v.PageAligned) (hle : a.toNat < 2 ^ 30) :
    boot (a + vmmPageSize) v =
      if v = a + kernelVirtOffset then some a else if v = a then some a else boot a v := by
  have ha' := (U32.pageAligned_iff a).mp ha
  have hv' := (U32.pageAligned_iff v).mp hv
  have hnext : (a + vmmPageSize).toNat = a.toNat + 4096 := by
    unfold vmmPageSize
    bv_omega
  have hlow : v < a + vmmPageSize ↔ v < a ∨ v = a := by
    rw [← BitVec.toNat_inj, BitVec.lt_def, BitVec.lt_def, hnext]
    omega
  have hhigh : (kernelVirtOffset ≤ v ∧ v - kernelVirtOffset < a + vmmPageSize) ↔
      (kernelVirtOffset ≤ v ∧ v - kernelVirtOffset < a) ∨ v = a + kernelVirtOffset := by
    rw [BitVec.lt_def, hnext]
    unfold kernelVirtOffset
    constructor
    · rintro ⟨h₁, h₂⟩
      by_cases hva : v = a + 0xC0000000#32
      · exact .inr hva
      · left
        refine ⟨h₁, ?_⟩
        bv_omega
    · rintro (⟨h₁, h₂⟩ | rfl)
      · refine ⟨h₁, ?_⟩
        bv_omega
      · constructor <;> bv_omega
  unfold boot
  by_cases hva : v = a + kernelVirtOffset
  · subst hva
    have hnot : ¬ (a + kernelVirtOffset < a + vmmPageSize) := by
      unfold kernelVirtOffset vmmPageSize
      bv_omega
    rw [if_neg hnot, if_pos (hhigh.mpr (.inr rfl)), if_pos rfl, BitVec.add_sub_cancel]
  · rw [if_neg hva]
    by_cases hveq : v = a
    · subst hveq
      rw [if_pos (hlow.mpr (.inr rfl)), if_pos rfl]
    · have hlow' : v < a + vmmPageSize ↔ v < a := hlow.trans (or_iff_left hveq)
      have hhigh' := hhigh.trans (or_iff_left hva)
      rw [if_neg hveq]
      simp only [hlow', hhigh']

end FlatMap

/-! ### Initialisation -/

section Init
variable {σ : Type*} {ops : PmmOps σ} {InUse : σ → U32 → Prop} {s : VmmState σ}

/-- The state represents the map. -/
def VmmState.Represents (s : VmmState σ) (m : FlatMap) : Prop :=
  ∀ v, v.PageAligned → s.translate v = m v

/-- The static data before `vmm_init`: an empty page directory. -/
def vmmStatic (table : U32 → U32 → U32) (pmm : σ) : VmmState σ where
  pd _ := 0#32
  table := table
  ready := false
  nextVaddr := 0#32
  directMapEnd := 0#32
  pmm := pmm

/-- A comparison of words that takes the larger one. -/
theorem ite_lt_toNat (a b : U32) : (if a < b then b else a).toNat = max a.toNat b.toNat := by
  split
  · rename_i hlt
    rw [BitVec.lt_def] at hlt
    exact (max_eq_right hlt.le).symm
  · rename_i hge
    rw [BitVec.lt_def] at hge
    exact (max_eq_left (not_lt.mp hge)).symm

/-- A comparison of words that takes the smaller one. -/
theorem ite_gt_toNat (a b : U32) : (if a > b then b else a).toNat = min a.toNat b.toNat := by
  split
  · rename_i hlt
    rw [gt_iff_lt, BitVec.lt_def] at hlt
    exact (min_eq_right hlt.le).symm
  · rename_i hge
    rw [gt_iff_lt, BitVec.lt_def] at hge
    exact (min_eq_left (not_lt.mp hge)).symm

/-- **The end of the mapped range**: the end of the kernel image or of what the physical allocator says
it manages, at least 16 MiB and at most 1 GiB, rounded up to a page. -/
theorem vmmMapEnd_toNat (ops : PmmOps σ) (kernelEnd : U32) (p : σ) :
    (vmmMapEnd ops kernelEnd p).toNat =
      (min (max (max kernelEnd.toNat 0x1000000)
        (ops.managedBase p + ops.totalPages p * vmmPageSize).toNat) 0x40000000 + 4095) / 4096 * 4096 := by
  obtain ⟨x, hx⟩ : ∃ x : U32, x =
      (let y := if (if kernelEnd < 16#32 * 1024#32 * 1024#32 then 16#32 * 1024#32 * 1024#32
            else kernelEnd) < ops.managedBase p + ops.totalPages p * vmmPageSize
        then ops.managedBase p + ops.totalPages p * vmmPageSize
        else if kernelEnd < 16#32 * 1024#32 * 1024#32 then 16#32 * 1024#32 * 1024#32 else kernelEnd
      if y > 0x40000000#32 then 0x40000000#32 else y) := ⟨_, rfl⟩
  have hmax : vmmMapEnd ops kernelEnd p =
      (x + vmmPageSize - 1#32) &&& ~~~ (vmmPageSize - 1#32) := by rw [hx]; rfl
  have hnat : x.toNat = min (max (max kernelEnd.toNat 0x1000000)
      (ops.managedBase p + ops.totalPages p * vmmPageSize).toNat) 0x40000000 := by
    rw [hx]
    dsimp only
    rw [ite_gt_toNat, ite_lt_toNat, ite_lt_toNat]
    rfl
  have hsum : (x + vmmPageSize - 1#32).toNat = x.toNat + 4095 := by
    have hle : x.toNat ≤ 0x40000000 := hnat ▸ min_le_right _ _
    unfold vmmPageSize
    bv_omega
  rw [hmax, show vmmPageSize - 1#32 = BitVec.ofNat 32 (2 ^ 12 - 1) from rfl,
    U32.toNat_and_not_low _ _ (by decide), hsum, hnat, show 2 ^ 12 = 4096 from rfl]

/-- The mapped range ends at a page boundary, at 1 GiB at most. -/
theorem vmmMapEnd_spec (ops : PmmOps σ) (kernelEnd : U32) (p : σ) :
    (vmmMapEnd ops kernelEnd p).PageAligned ∧ (vmmMapEnd ops kernelEnd p).toNat ≤ 2 ^ 30 := by
  have hend := vmmMapEnd_toNat ops kernelEnd p
  have hle := min_le_right (max (max kernelEnd.toNat 0x1000000)
    (ops.managedBase p + ops.totalPages p * vmmPageSize).toNat) 0x40000000
  rw [U32.pageAligned_iff]
  omega

/-- **What each mapping of the loop keeps**, the loop keeps, also when one of them fails. -/
theorem vmmInitLoop_invariant {I : VmmState σ → Prop} {mapEnd : U32}
    (hmap : ∀ s addr virt, I s → addr.PageAligned → addr < mapEnd →
      virt = addr ∨ virt = addr + kernelVirtOffset →
        I (vmmMapPage ops virt addr (ptePresent ||| pteWritable) s).1)
    (n : ℕ) {addr : U32} {ok : Bool} {s' : VmmState σ} (haddr : addr.PageAligned) (h : I s)
    (hres : vmmInitLoop ops mapEnd n addr s = some (s', ok)) : I s' := by
  induction n generalizing addr s with
  | zero => exact absurd hres (by simp [vmmInitLoop])
  | succ n ih =>
    unfold vmmInitLoop at hres
    split at hres
    · rename_i hlt
      have h₁ := hmap s addr addr h haddr hlt (.inl rfl)
      have h₂ := hmap _ addr (addr + kernelVirtOffset) h₁ haddr hlt (.inr rfl)
      dsimp only at hres
      split at hres
      · obtain ⟨rfl, -⟩ := Prod.mk.inj (Option.some.inj hres)
        exact h₁
      · split at hres
        · obtain ⟨rfl, -⟩ := Prod.mk.inj (Option.some.inj hres)
          exact h₂
        · refine ih ?_ h₂ hres
          rw [U32.pageAligned_iff] at haddr ⊢
          unfold vmmPageSize
          bv_omega
    · obtain ⟨rfl, -⟩ := Prod.mk.inj (Option.some.inj hres)
      exact h

/-- The mapping loop ends; when all pages could be mapped, the map is the boot map. -/
theorem vmmInitLoop_spec (hops : ops.Lawful InUse) {mapEnd : U32} (hend : mapEnd.PageAligned)
    (hmax : mapEnd.toNat ≤ 2 ^ 30) (n : ℕ) {addr : U32} (haddr : addr.PageAligned)
    (hle : addr.toNat ≤ mapEnd.toNat) (hn : mapEnd.toNat < addr.toNat + n * 4096)
    (h : s.WellFormed InUse) (hm : s.Represents (FlatMap.boot addr)) :
    ∃ s' ok, vmmInitLoop ops mapEnd n addr s = some (s', ok) ∧ s'.WellFormed InUse ∧
      s.Extends s' InUse ∧ (ok → s'.Represents (FlatMap.boot mapEnd)) := by
  induction n generalizing addr s with
  | zero => omega
  | succ n ih =>
    have hend' := (U32.pageAligned_iff _).mp hend
    have haddr' := (U32.pageAligned_iff _).mp haddr
    unfold vmmInitLoop
    by_cases hlt : addr < mapEnd
    · rw [BitVec.lt_def] at hlt
      have hnext : (addr + vmmPageSize).toNat = addr.toNat + 4096 := by
        unfold vmmPageSize
        bv_omega
      obtain ⟨s₁, r₁, hres₁, hwf₁, hext₁, hcase₁⟩ :=
        vmmMapPage_spec hops h addr addr (ptePresent ||| pteWritable)
      simp only [if_pos (BitVec.lt_def.mpr hlt), hres₁]
      -- either mapping can fail for want of a table; the loop then stops with `false`
      rcases hcase₁ with ⟨rfl, -⟩ | ⟨rfl, -, htrans₁⟩
      · exact ⟨s₁, false, rfl, hwf₁, hext₁, fun hf => absurd hf (by decide)⟩
      obtain ⟨s₂, r₂, hres₂, hwf₂, hext₂, hcase₂⟩ :=
        vmmMapPage_spec hops hwf₁ (addr + kernelVirtOffset) addr (ptePresent ||| pteWritable)
      simp only [hres₂]
      rcases hcase₂ with ⟨rfl, -⟩ | ⟨rfl, -, htrans₂⟩
      · exact ⟨s₂, false, rfl, hwf₂, hext₁.trans hext₂, fun hf => absurd hf (by decide)⟩
      have hpresent : IsPresent (ptePresent ||| pteWritable) := by decide
      obtain ⟨s', ok, hres, hwf, hext, hok⟩ := ih (s := s₂)
        (show (addr + vmmPageSize).PageAligned by rw [U32.pageAligned_iff, hnext]; omega)
        (by omega) (by rw [hnext]; omega) hwf₂ (by
          intro v hv
          rw [htrans₂ v hv, htrans₁ v hv, if_pos hpresent, hm v hv,
            FlatMap.boot_succ haddr hv (by omega)])
      exact ⟨s', ok, hres, hwf, (hext₁.trans hext₂).trans hext, hok⟩
    · have heq : addr = mapEnd := by
        rw [BitVec.lt_def] at hlt
        apply BitVec.eq_of_toNat_eq
        omega
      rw [if_neg hlt]
      exact ⟨s, true, rfl, h, .refl s, fun _ => heq ▸ hm⟩

/-- The state in which `vmm_init` starts to map: the page directory has been cleared. -/
def vmmCleared (table : U32 → U32 → U32) (pmm : σ) : VmmState σ :=
  { vmmStatic table pmm with pd := memzeroPage (vmmStatic table pmm).pd 1024 }

/-- The directory is empty. -/
theorem vmmCleared_pd (table : U32 → U32 → U32) (p : σ) (i : U32) :
    (vmmCleared table p).pd i = 0#32 := by
  unfold vmmCleared
  simp only [memzeroPage_eq _ (n := 1024) (by decide)]
  split
  · rfl
  · rfl

/-- An empty directory is well formed and maps nothing. -/
theorem vmmCleared_spec (InUse : σ → U32 → Prop) (table : U32 → U32 → U32) (p : σ) :
    (vmmCleared table p).WellFormed InUse ∧ ∀ v, (vmmCleared table p).entry v = none := by
  have hpd := vmmCleared_pd table p
  have hdir : ∀ i, (vmmCleared table p).dir i = none := by
    intro i
    apply VmmState.dir_of_not_present
    rw [hpd]
    decide
  refine ⟨⟨fun i f hf => ?_, fun i j t hi => ?_⟩, fun v => TwoLevelMap.lookup_of_none (hdir _) _⟩
  · rw [hpd, entryTarget_zero] at hf
    exact absurd hf (by simp)
  · rw [hdir] at hi
    exact absurd hi (by simp)

/-- How `vmm_init` ends: after a mapping that failed the static data are as they were, else they are
set from the end of the mapped range. -/
theorem vmmInit_cases {kernelEnd : U32} {table : U32 → U32 → U32} {p : σ}
    (h : vmmInit ops kernelEnd (vmmStatic table p) = some s) :
    ∃ s₁ ok, vmmInitLoop ops (vmmMapEnd ops kernelEnd p) (2 ^ 20) 0#32 (vmmCleared table p) =
        some (s₁, ok) ∧
      (ok = false ∧ s = s₁ ∨ ok = true ∧ s = { s₁ with
        ready := true
        nextVaddr := (kernelVirtOffset + vmmMapEnd ops kernelEnd p + 0x400000#32 - 1#32) &&&
          ~~~ (0x400000#32 - 1#32)
        directMapEnd := kernelVirtOffset + vmmMapEnd ops kernelEnd p }) := by
  unfold vmmInit at h
  obtain ⟨r, hloop, hr⟩ := Option.map_eq_some_iff.mp h
  obtain ⟨s₁, ok⟩ := r
  refine ⟨s₁, ok, hloop, ?_⟩
  cases ok with
  | false => exact .inl ⟨rfl, hr.symm⟩
  | true => exact .inr ⟨rfl, hr.symm⟩

/-- The mapping loop of `vmm_init` returns, and has built the boot map when every page was mapped. -/
theorem vmmInitLoop_boot (hops : ops.Lawful InUse) (kernelEnd : U32) (table : U32 → U32 → U32) (p : σ) :
    ∃ s ok, vmmInitLoop ops (vmmMapEnd ops kernelEnd p) (2 ^ 20) 0#32 (vmmCleared table p) =
        some (s, ok) ∧ s.WellFormed InUse ∧ (vmmCleared table p).Extends s InUse ∧
      (ok → s.Represents (FlatMap.boot (vmmMapEnd ops kernelEnd p))) := by
  obtain ⟨hwf₀, hentry₀⟩ := vmmCleared_spec InUse table p
  have hm₀ : (vmmCleared table p).Represents (FlatMap.boot 0#32) := by
    intro v _
    have hboot : FlatMap.boot 0#32 v = none := by
      unfold FlatMap.boot
      rw [if_neg (BitVec.not_lt_zero), if_neg]
      exact fun hc => absurd hc.2 (BitVec.not_lt_zero)
    rw [hboot, VmmState.translate_eq, hentry₀, Option.map_none]
  obtain ⟨hend, hmax⟩ := vmmMapEnd_spec ops kernelEnd p
  exact vmmInitLoop_spec hops hend hmax (2 ^ 20) (by decide : U32.PageAligned 0#32) (Nat.zero_le _)
    (by rw [show (0#32).toNat = 0 from rfl]; omega) hwf₀ hm₀

/-- **`vmm_init`** returns. When it had enough frames the state is ready and represents the boot map, and
the watermark is the end of the direct map, rounded up to 4 MiB; else there is no watermark. -/
theorem vmmInit_boot (hops : ops.Lawful InUse) (kernelEnd : U32) (table : U32 → U32 → U32) (p : σ) :
    ∃ s, vmmInit ops kernelEnd (vmmStatic table p) = some s ∧ s.WellFormed InUse ∧
      (∀ f, InUse p f → InUse s.pmm f) ∧
      (s.ready → s.Represents (FlatMap.boot (vmmMapEnd ops kernelEnd p)) ∧
        s.nextVaddr = (kernelVirtOffset + vmmMapEnd ops kernelEnd p + 0x400000#32 - 1#32) &&&
          ~~~ (0x400000#32 - 1#32)) ∧
      (¬ s.ready → s.nextVaddr = 0#32) := by
  obtain ⟨s₁, ok, hres, hwf₁, hext₁, hok⟩ := vmmInitLoop_boot hops kernelEnd table p
  obtain ⟨s, hs⟩ : ∃ s, vmmInit ops kernelEnd (vmmStatic table p) = some s := by
    apply Option.isSome_iff_exists.mp
    unfold vmmInit
    exact (Option.isSome_map ..).trans (congrArg Option.isSome hres)
  refine ⟨s, hs, ?_⟩
  obtain ⟨s₁', ok', hres', hcase⟩ := vmmInit_cases hs
  obtain ⟨rfl, rfl⟩ : s₁ = s₁' ∧ ok = ok' := by simpa using hres.symm.trans hres'
  rcases hcase with ⟨-, rfl⟩ | ⟨rfl, rfl⟩
  · -- some page could not be mapped
    have hready₀ : (vmmCleared table p).ready = false := rfl
    exact ⟨hwf₁, hext₁.inUse, fun hr => absurd hr (by simp [hext₁.ready, hready₀]),
      fun _ => hext₁.nextVaddr⟩
  · exact ⟨⟨hwf₁.inUse, hwf₁.injective⟩, hext₁.inUse, fun _ => ⟨hok rfl, rfl⟩,
      fun hr => absurd rfl hr⟩

/-- The end of the direct map. -/
theorem vmmInit_directMapEnd (hops : ops.Lawful InUse) {kernelEnd : U32} {table : U32 → U32 → U32}
    {p : σ} (h : vmmInit ops kernelEnd (vmmStatic table p) = some s) (hready : s.ready) :
    s.directMapEnd = kernelVirtOffset + vmmMapEnd ops kernelEnd p := by
  obtain ⟨s₁, ok, hres, -, hext, -⟩ := vmmInitLoop_boot hops kernelEnd table p
  obtain ⟨s₁', ok', hres', hcase⟩ := vmmInit_cases h
  obtain ⟨rfl, rfl⟩ : s₁ = s₁' ∧ ok = ok' := by simpa using hres.symm.trans hres'
  rcases hcase with ⟨-, rfl⟩ | ⟨-, rfl⟩
  · have hready₀ : (vmmCleared table p).ready = false := rfl
    exact absurd hready (by simp [hext.ready, hready₀])
  · rfl

/-- **The direct map alone** is mapped after `vmm_init` and `vmm_unmap_identity`. -/
theorem vmmInit_directMap (hops : ops.Lawful InUse) {kernelEnd : U32} {table : U32 → U32 → U32} {p : σ}
    (h : vmmInit ops kernelEnd (vmmStatic table p) = some s) (hready : s.ready) {v : U32}
    (hv : v.PageAligned) : (vmmUnmapIdentity s).translate v =
      if kernelVirtOffset ≤ v ∧ v - kernelVirtOffset < vmmMapEnd ops kernelEnd p then
        some (v - kernelVirtOffset)
      else none := by
  obtain ⟨s', hinit, hwf, -, hboot, -⟩ := vmmInit_boot hops kernelEnd table p
  obtain rfl := Option.some.inj (h.symm.trans hinit)
  obtain ⟨-, -, htrans⟩ := vmmUnmapIdentity_spec hwf
  obtain ⟨-, hmax⟩ := vmmMapEnd_spec ops kernelEnd p
  rw [htrans hready, (hboot hready).1 v hv, FlatMap.boot]
  by_cases hlow : v < kernelVirtOffset
  · rw [if_pos hlow, if_neg fun hc => absurd hlow (BitVec.not_lt.mpr hc.1)]
  · have hnot : ¬ v < vmmMapEnd ops kernelEnd p := by
      rw [BitVec.lt_def, show kernelVirtOffset.toNat = 0xC0000000 from rfl] at hlow
      rw [BitVec.lt_def]
      omega
    rw [if_neg hlow, if_neg hnot]

/-- `vmm_init` returns, and represents the boot map when it had enough frames. -/
theorem vmmInit_spec (hops : ops.Lawful InUse) (kernelEnd : U32) (table : U32 → U32 → U32) (p : σ) :
    ∃ s, vmmInit ops kernelEnd (vmmStatic table p) = some s ∧ s.WellFormed InUse ∧
      (s.ready → s.Represents (FlatMap.boot (vmmMapEnd ops kernelEnd p))) := by
  obtain ⟨s, hs, hwf, -, hready, -⟩ := vmmInit_boot hops kernelEnd table p
  exact ⟨s, hs, hwf, fun hr => (hready hr).1⟩

end Init

/-! ### Runs -/

/-- A call to the virtual memory manager. A request for a mapping comes with a source of frames. -/
inductive VmmCall where
  | map (virt phys flags : U32) (source : FrameSource)
  | unmap (virt : U32)
  | unmapIdentity

/-- One call, with `0` for the calls that return nothing. -/
def vmmCall (s : VmmState Frames) : VmmCall → VmmState Frames × Int
  | .map virt phys flags source =>
      vmmMapPage framesOps virt phys flags { s with pmm := { s.pmm with source := source } }
  | .unmap virt => (vmmUnmapPage virt s, 0)
  | .unmapIdentity => (vmmUnmapIdentity s, 0)

/-- What a call and its answer mean for the flat map: a rejected call changes nothing. -/
def FlatMap.step (m : FlatMap) : VmmCall × Int → FlatMap
  | (.map virt phys flags _, answer) => if answer = 0 then m.map virt phys flags else m
  | (.unmap virt, _) => if virt.PageAligned then m.unmap virt else m
  | (.unmapIdentity, _) => m.unmapIdentity

/-- The flat map after calls that were answered as given. -/
def FlatMap.run (m : FlatMap) (calls : List VmmCall) (answers : List Int) : FlatMap :=
  (calls.zip answers).foldl FlatMap.step m

/-- The virtual memory manager from a state on, as a machine. -/
def vmmMachine (s : VmmState Frames) : Machine (VmmState Frames) VmmCall Int :=
  ⟨s, fun s call => some (vmmCall s call)⟩

/-- The frames in use. -/
abbrev FramesInUse : Frames → U32 → Prop := fun p f => f ∈ p.used

/-- One call keeps the invariant, and makes its change to the map. -/
theorem vmmCall_spec {s : VmmState Frames} {m : FlatMap} (h : s.WellFormed FramesInUse)
    (hm : s.ready → s.Represents m) (call : VmmCall) :
    ∃ s' answer, vmmCall s call = (s', answer) ∧ s'.WellFormed FramesInUse ∧ s'.ready = s.ready ∧
      (s'.ready → s'.Represents (m.step (call, answer))) := by
  cases call with
  | map virt phys flags source =>
    have h' : VmmState.WellFormed { s with pmm := { s.pmm with source := source } } FramesInUse :=
      ⟨h.inUse, h.injective⟩
    obtain ⟨s', r, hres, hwf, hext, hcase⟩ := vmmMapPage_spec framesOps_lawful h' virt phys flags
    refine ⟨s', r, hres, hwf, hext.ready, fun hr v hv => ?_⟩
    have hmv := hm (hext.ready ▸ hr) v hv
    rcases hcase with ⟨rfl, htrans⟩ | ⟨rfl, -, htrans⟩
    · rw [htrans]
      exact hmv
    · rw [htrans v hv, FlatMap.step, if_pos rfl, FlatMap.map, Function.update_apply, ← hmv]
      rfl
  | unmap virt =>
    obtain ⟨hwf, hready, htrans⟩ := vmmUnmapPage_spec h virt
    refine ⟨_, 0, rfl, hwf, hready, fun hr v hv => ?_⟩
    have hmv := hm (hready ▸ hr) v hv
    rw [htrans v hv, hmv, FlatMap.step]
    split
    · rename_i hveq
      rw [← hveq, if_pos hv, FlatMap.unmap, Function.update_self]
    · rename_i hne
      split
      · rw [FlatMap.unmap, Function.update_of_ne hne]
      · rfl
  | unmapIdentity =>
    obtain ⟨hwf, hready, htrans⟩ := vmmUnmapIdentity_spec h
    refine ⟨_, 0, rfl, hwf, hready, fun hr v hv => ?_⟩
    rw [htrans (hready ▸ hr), hm (hready ▸ hr) v hv]
    rfl

/-- **The page tables implement a flat map.** Whatever the kernel image, the memory and the sources of
frames, after `vmm_init` and any calls `vmm_get_physical` answers for every page as the flat map says:
the boot map changed by each mapping that succeeded, each unmapping, and the removal of the lower
part. (When `vmm_init` ran out of frames it answers nothing.) -/
theorem vmm_refines_flatMap (kernelEnd : U32) (table : U32 → U32 → U32) (p : Frames)
    (calls : List VmmCall) :
    ∃ s₀ s answers, vmmInit framesOps kernelEnd (vmmStatic table p) = some s₀ ∧
      (vmmMachine s₀).run calls = some (s, answers) ∧ s.WellFormed FramesInUse ∧
      s.ready = s₀.ready ∧ ∀ v, v.PageAligned → vmmGetPhysical v s =
        if s₀.ready then
          (FlatMap.boot (vmmMapEnd framesOps kernelEnd p)).run calls answers v
        else none := by
  obtain ⟨s₀, hinit, hwf₀, hm₀⟩ := vmmInit_spec framesOps_lawful kernelEnd table p
  obtain ⟨s, answers, hrun, hwf, hready, hm⟩ := Machine.runFrom_trace (M := vmmMachine s₀)
    (R := fun s m => s.WellFormed FramesInUse ∧ s.ready = s₀.ready ∧ (s.ready → s.Represents m))
    FlatMap.step (fun s m call ⟨hwf, hready, hm⟩ => by
      obtain ⟨s', answer, hres, hwf', hready', hm'⟩ := vmmCall_spec hwf hm call
      exact ⟨s', answer, congrArg some hres, hwf', hready'.trans hready, hm'⟩)
    calls s₀ (FlatMap.boot (vmmMapEnd framesOps kernelEnd p)) ⟨hwf₀, rfl, hm₀⟩
  refine ⟨s₀, s, answers, hinit, hrun, hwf, hready, fun v hv => ?_⟩
  rw [vmmGetPhysical_eq, hready]
  by_cases hr : s₀.ready
  · rw [if_pos ⟨hr, hv⟩, if_pos hr]
    exact hm (hready ▸ hr) v hv
  · rw [if_neg fun hc => hr hc.1, if_neg hr]

end Microkernel.Vmm
