import Microkernel.Kernel.RegistryAccounts
import Microkernel.Vma.Backends

/-! # The end of the direct map and the watermark

`vmm_init` maps at most 1 GiB and then adds `KERNEL_VIRT_OFFSET`, which leaves room for one byte less. The end
of the direct map, its registration by `kmain` and the watermark of `vmm_alloc_pages` are right as long as the
mapped range and the rounding to 4 MiB stay below the end of the address space.

* **`EndsRight`** — that they are the numbers they stand for: an end above the start, a watermark behind
  it at a multiple of 4 MiB, and an area that the registry accepts.
* **`vmmInit_endsRight_iff`** — exactly when this is so: the mapped range ends at 1020 MiB or below. At 1
  GiB the end wraps to 0, the area is empty and the watermark is `NULL`.
-/

namespace Microkernel.Kernel

open Heap Vma Vmm

section Watermark
variable {σ : Type*} {P : LawfulPmm σ} {kernelEnd mapEnd : U32} {table : U32 → U32 → U32} {pmm : σ}
  {s : VmmState σ}

/-- The registration of the direct map in `kmain`, behind `vmm_unmap_identity`, `kmalloc_init` and
`vma_init`. -/
def registerDirectMap (P : LawfulPmm σ) (heap : HeapBackend) (b : VmaBackend) (state : b.State)
    (names : AreaNames) (s : VmmState σ) : Option (VmaRegistry b.State × Int) :=
  vmaAdd b.ops kernelVirtOffset (kmallocInit P (vmmUnmapIdentity s) heap.static).1.directMapEnd
    (vmaRead ||| vmaWrite ||| vmaExec) names.directMap (vmaInit b.ops ⟨false, state⟩)

/-- What `vmm_init` should leave behind when it has mapped the memory below `mapEnd`: an end of the direct
map and a watermark that are the numbers they stand for, an area that is registered, and a `vmm_alloc_pages`
that takes requests. -/
structure EndsRight (P : LawfulPmm σ) (mapEnd : U32) (s : VmmState σ) : Prop where
  directMapEnd_toNat : s.directMapEnd.toNat = kernelVirtOffset.toNat + mapEnd.toNat
  directMapEnd_sub : s.directMapEnd - kernelVirtOffset = mapEnd
  directMapEnd_gt : kernelVirtOffset < s.directMapEnd
  nextVaddr_toNat : s.nextVaddr.toNat = (s.directMapEnd.toNat + 0x3FFFFF) / 0x400000 * 0x400000
  nextVaddr_ne : s.nextVaddr ≠ 0#32
  nextVaddr_dvd : 0x400000 ∣ s.nextVaddr.toNat
  nextVaddr_ge : s.directMapEnd ≤ s.nextVaddr
  registers : ∀ heap b (state : b.State) names,
    ∃ r, registerDirectMap P heap b state names s = some (r, 0)
  takes : ¬ s.Rejects 1#32
  serves : s.Supplied P 1 → (vmmAllocPages P 1#32 s).2 ≠ 0#32

/-- The mapped range leaves 4 MiB below the end of the address space when the kernel image and the memory of
the physical allocator do. -/
theorem vmmMapEnd_le_iff (ops : PmmOps σ) (kernelEnd : U32) (pmm : σ) :
    (vmmMapEnd ops kernelEnd pmm).toNat ≤ 0x3FC00000 ↔ kernelEnd.toNat ≤ 0x3FC00000 ∧
      (ops.managedBase pmm + ops.totalPages pmm * vmmPageSize).toNat ≤ 0x3FC00000 := by
  rw [vmmMapEnd_toNat]
  omega

/-- An area with the direct map's bounds is admitted as the first one when its end has not wrapped around. -/
theorem admits_directMapArea (names : AreaNames) {stop : U32} (hlt : kernelVirtOffset < stop)
    (halign : stop.PageAligned) : AreaSet.empty.Admits (directMapArea names stop) := by
  have hoff : kernelVirtOffset.PageAligned := by decide
  have hvalid : (directMapArea names stop).Valid := ⟨hlt, hoff, halign⟩
  exact ⟨by decide, hvalid, fun b hb => absurd hb List.not_mem_nil⟩

/-- **The direct map is registered** by every backend when its end has not wrapped around. -/
theorem registerDirectMap_accepted (hwf : s.WellFormed P.InUse) (hlt : kernelVirtOffset < s.directMapEnd)
    (halign : s.directMapEnd.PageAligned) (heap : HeapBackend) (b : VmaBackend) (state : b.State)
    (names : AreaNames) : ∃ r, registerDirectMap P heap b state names s = some (r, 0) := by
  obtain ⟨hwf', -, -⟩ := vmmUnmapIdentity_spec hwf
  obtain ⟨-, -, hend⟩ := kmallocInit_static hwf' heap.static_sound
  have hstop : (kmallocInit P (vmmUnmapIdentity s) heap.static).1.directMapEnd = s.directMapEnd :=
    hend.trans (vmmUnmapIdentity_rest s).2.2.2.1
  obtain ⟨t, hadd, -⟩ := b.refinement.add (b.refinement.init state)
    (lt_of_lt_of_le Nat.zero_lt_two b.room_bounds.1) kernelVirtOffset s.directMapEnd
    (vmaRead ||| vmaWrite ||| vmaExec) names.directMap
  have hanswer : (AreaSet.empty.add (directMapArea names s.directMapEnd)).2 = 0 :=
    congrArg Prod.snd (AreaSet.add_of_admits (admits_directMapArea names hlt halign))
  refine ⟨⟨true, t⟩, ?_⟩
  unfold registerDirectMap vmaAdd vmaInit
  rw [hstop, if_neg (by simp), hadd]
  exact congrArg (fun r => some (_, r)) hanswer

/-- With a watermark other than `0` at a multiple of 4 MiB, a page is not turned away, and it is mapped when
there are frames. -/
theorem vmmAllocPages_takes (hready : s.ready) (hne : s.nextVaddr ≠ 0#32)
    (hdvd : 0x400000 ∣ s.nextVaddr.toNat) :
    ¬ s.Rejects 1#32 ∧ (s.Supplied P 1 → (vmmAllocPages P 1#32 s).2 ≠ 0#32) := by
  have hlt := s.nextVaddr.isLt
  have hend : s.nextVaddr.toNat + 4096 < 2 ^ 32 := by omega
  refine ⟨?_, fun hsup => ?_⟩
  · rintro (hzero | hnot | hnull | hover)
    · exact absurd hzero (by decide)
    · exact hnot hready
    · exact hne hnull
    · rw [gt_iff_lt, BitVec.lt_def] at hover
      have hpage : (1#32 * vmmPageSize).toNat = 4096 := by decide
      bv_omega
  · have halign : s.nextVaddr.PageAligned := by
      rw [U32.pageAligned_iff]
      omega
    have hanswer : (vmmAllocPages P 1#32 s).2 = s.nextVaddr :=
      vmmAllocPages_supplied hsup hready halign hne (by decide) hend
    rw [hanswer]
    exact hne

/-- **The numbers are right** when the mapped range leaves room for the rounding. -/
theorem endsRight_of_le (hwf : s.WellFormed P.InUse) (hready : s.ready) (halign : mapEnd.PageAligned)
    (hpos : 0 < mapEnd.toNat) (hle : mapEnd.toNat ≤ 0x3FC00000)
    (hend : s.directMapEnd = kernelVirtOffset + mapEnd)
    (hnext : s.nextVaddr.toNat = (0xC0000000 + mapEnd.toNat + 0x3FFFFF) % 2 ^ 32 / 2 ^ 22 * 2 ^ 22) :
    EndsRight P mapEnd s := by
  have hoff : kernelVirtOffset.toNat = 0xC0000000 := rfl
  have hnat : s.directMapEnd.toNat = 0xC0000000 + mapEnd.toNat := by
    rw [hend, BitVec.toNat_add, hoff]
    omega
  have hgt : kernelVirtOffset < s.directMapEnd := by
    rw [BitVec.lt_def, hnat, hoff]
    omega
  have hdvd : 0x400000 ∣ s.nextVaddr.toNat := by
    rw [hnext]
    exact Dvd.intro_left _ rfl
  have hne : s.nextVaddr ≠ 0#32 := by
    intro hzero
    rw [hzero, show (0#32).toNat = 0 from rfl] at hnext
    omega
  have hstop : s.directMapEnd.PageAligned := by
    rw [U32.pageAligned_iff] at halign ⊢
    omega
  obtain ⟨htakes, hserves⟩ := vmmAllocPages_takes (P := P) hready hne hdvd
  exact {
    directMapEnd_toNat := hnat
    directMapEnd_sub := by rw [hend, BitVec.add_comm, BitVec.add_sub_cancel]
    directMapEnd_gt := hgt
    nextVaddr_toNat := by
      rw [hnext, hnat, Nat.mod_eq_of_lt (by omega), show 2 ^ 22 = 0x400000 from rfl]
    nextVaddr_ne := hne
    nextVaddr_dvd := hdvd
    nextVaddr_ge := by
      rw [BitVec.le_def]
      omega
    registers := registerDirectMap_accepted hwf hgt hstop
    takes := htakes
    serves := hserves }

/-- **`vmm_init` leaves the right numbers behind exactly below 1020 MiB**: when it finishes, the end of the
direct map and the watermark are computed without wrapping around, the direct map can be registered and
`vmm_alloc_pages` takes requests if and only if the kernel image and the memory of the physical allocator end
at `0x3FC00000` or before. -/
theorem vmmInit_endsRight_iff
    (hinit : vmmInit P.toPmmOps kernelEnd (vmmStatic table pmm) = some s) (hready : s.ready) :
    EndsRight P (vmmMapEnd P.toPmmOps kernelEnd pmm) s ↔ kernelEnd.toNat ≤ 0x3FC00000 ∧
      (P.managedBase pmm + P.totalPages pmm * vmmPageSize).toNat ≤ 0x3FC00000 := by
  obtain ⟨s', hinit', hwf, -, hboot, -⟩ := vmmInit_boot P.lawful kernelEnd table pmm
  obtain rfl := Option.some.inj (hinit.symm.trans hinit')
  obtain ⟨halign, hmax⟩ := vmmMapEnd_spec P.toPmmOps kernelEnd pmm
  have hend := vmmInit_directMapEnd P.lawful hinit hready
  have hnext := watermark_toNat (hboot hready).2
  have hpos : 0 < (vmmMapEnd P.toPmmOps kernelEnd pmm).toNat := by
    rw [vmmMapEnd_toNat]
    omega
  rw [← vmmMapEnd_le_iff]
  refine ⟨fun h => ?_, fun hle => endsRight_of_le hwf hready halign hpos hle hend hnext⟩
  -- past the bound the rounded sum wraps around to nothing
  by_contra hgt
  apply h.nextVaddr_ne
  apply BitVec.eq_of_toNat_eq
  rw [hnext, show (0#32).toNat = 0 from rfl]
  omega

end Watermark

/-- A machine with 2 MiB. -/
theorem vmmInit_endsRight_low :
    ∃ s, vmmInit (freeListPmm 256#32 0x100000#32).toPmmOps 0x200000#32
        (vmmStatic (fun _ _ => 0#32) sampleFrames) = some s ∧
      EndsRight (freeListPmm 256#32 0x100000#32) 0x1000000#32 s := by
  obtain ⟨s, hinit, hready, -⟩ := vmmInit_supplied (k := 0)
    ((sampleFrames_supplies 256#32 0x100000#32).mono (by decide)) 0x200000#32 (fun _ _ => 0#32)
  exact ⟨s, hinit, (vmmInit_endsRight_iff hinit hready).mpr ⟨by decide, by decide⟩⟩

/-- On a machine with 1 GiB the end of the direct map wraps around to `0`. -/
theorem watermark_wraps :
    ¬ ∀ (P : LawfulPmm FreeFrames) kernelEnd table pmm s,
      vmmInit P.toPmmOps kernelEnd (vmmStatic table pmm) = some s → s.ready →
      EndsRight P (vmmMapEnd P.toPmmOps kernelEnd pmm) s := by
  intro hall
  obtain ⟨s, hinit, hready, -⟩ := vmmInit_supplied (k := 0)
    ((sampleFrames_supplies 0x3FF00#32 0x100000#32).mono (by decide)) 0x200000#32 (fun _ _ => 0#32)
  have hgt := (hall _ _ _ _ s hinit hready).directMapEnd_gt
  rw [vmmInit_directMapEnd (freeListPmm 0x3FF00#32 0x100000#32).lawful hinit hready] at hgt
  exact absurd hgt (by decide)

end Microkernel.Kernel
