import Microkernel.Vmm.FrameSupply

/-! # The map at boot

What `vmm_init` leaves in the page tables, page by page, and what `vmm_unmap_identity` takes away.

* **`IdentityAndHigh`** — the exact translation: no page is translated otherwise, and no other page is
  translated.
* **`vmmInit_exact`** — both functions, for every end of the kernel image and every physical allocator.
  The map is exact because `vmm_init` starts from an empty directory and every mapping changes one page;
  the cap of 1 GiB keeps the high half from wrapping into the low one.
-/

namespace Microkernel.Vmm

section BootMap
variable {σ : Type*} {ops : PmmOps σ} {InUse : σ → U32 → Prop} {s : VmmState σ}

/-- **The exact translation of the boot map**: `v ↦ v` below `mapEnd`, `v ↦ v - 0xC0000000` in the high
half as far as that, and nothing else. -/
def IdentityAndHigh (mapEnd v f : U32) : Prop :=
  v.toNat < mapEnd.toNat ∧ f = v ∨
    kernelVirtOffset.toNat ≤ v.toNat ∧ v.toNat < kernelVirtOffset.toNat + mapEnd.toNat ∧
      f = v - kernelVirtOffset

/-- The two images do not meet, so the boot map is this relation. -/
theorem FlatMap.boot_eq_some_iff {mapEnd v f : U32} (hmax : mapEnd.toNat ≤ 2 ^ 30) :
    FlatMap.boot mapEnd v = some f ↔ IdentityAndHigh mapEnd v f := by
  have hoff : kernelVirtOffset.toNat = 0xC0000000 := rfl
  unfold FlatMap.boot IdentityAndHigh
  by_cases hlow : v < mapEnd
  · have hlow' := BitVec.lt_def.mp hlow
    rw [if_pos hlow, Option.some.injEq]
    constructor
    · exact fun h => .inl ⟨hlow', h.symm⟩
    · rintro (⟨-, rfl⟩ | ⟨hge, -, -⟩)
      · rfl
      · omega
  · have hnot : ¬ v.toNat < mapEnd.toNat := mt BitVec.lt_def.mpr hlow
    rw [if_neg hlow]
    by_cases hge : kernelVirtOffset ≤ v
    · have hge' := BitVec.le_def.mp hge
      have hsub : v - kernelVirtOffset < mapEnd ↔
          v.toNat < kernelVirtOffset.toNat + mapEnd.toNat := by
        rw [BitVec.lt_def, BitVec.toNat_sub_of_le hge]
        omega
      simp only [hge, hsub, true_and]
      by_cases hlt : v.toNat < kernelVirtOffset.toNat + mapEnd.toNat
      · rw [if_pos hlt, Option.some.injEq]
        exact ⟨fun h => .inr ⟨hge', hlt, h.symm⟩, fun h => h.elim (fun h => absurd h.1 hnot)
          fun h => h.2.2.symm⟩
      · rw [if_neg hlt]
        exact ⟨fun h => absurd h (by simp), fun h => h.elim (fun h => absurd h.1 hnot)
          fun h => absurd h.2.1 hlt⟩
    · rw [if_neg fun h => hge h.1]
      exact ⟨fun h => absurd h (by simp), fun h => h.elim (fun h => absurd h.1 hnot)
        fun h => absurd (BitVec.le_def.mpr h.1) hge⟩

/-- **`vmm_init` builds exactly the identity map and the direct map, and `vmm_unmap_identity` removes
exactly the pages below the high half.** This is for every kernel image and every answer of the physical
allocator about its memory; `ready` says that the frames sufficed. The pages that stay keep their whole
entries, flags included. -/
theorem vmmInit_exact (hops : ops.Lawful InUse) (kernelEnd : U32) (table : U32 → U32 → U32) (p : σ) :
    ∃ s, vmmInit ops kernelEnd (vmmStatic table p) = some s ∧
      (s.ready →
        (∀ v f, v.PageAligned →
          (vmmGetPhysical v s = some f ↔ IdentityAndHigh (vmmMapEnd ops kernelEnd p) v f)) ∧
        (∀ v, v.PageAligned → v < kernelVirtOffset →
          vmmGetPhysical v (vmmUnmapIdentity s) = none) ∧
        ∀ v, v.PageAligned → kernelVirtOffset ≤ v → (vmmUnmapIdentity s).entry v = s.entry v ∧
          vmmGetPhysical v (vmmUnmapIdentity s) = vmmGetPhysical v s) := by
  obtain ⟨s, hs, hwf, hboot⟩ := vmmInit_spec hops kernelEnd table p
  obtain ⟨-, hmax⟩ := vmmMapEnd_spec ops kernelEnd p
  refine ⟨s, hs, fun hready => ⟨fun v f hv => ?_, fun v hv hlow => ?_, fun v hv hhigh => ?_⟩⟩
  · rw [vmmGetPhysical_eq, if_pos ⟨hready, hv⟩, hboot hready v hv]
    exact FlatMap.boot_eq_some_iff hmax
  · obtain ⟨-, hready', htrans⟩ := vmmUnmapIdentity_spec hwf
    rw [vmmGetPhysical_eq, if_pos ⟨hready'.trans hready, hv⟩, htrans hready, if_pos hlow]
  · obtain ⟨-, hready', htrans⟩ := vmmUnmapIdentity_spec hwf
    obtain ⟨-, hentry⟩ := vmmUnmapIdentity_entry hwf
    have hnot : ¬ v < kernelVirtOffset := BitVec.not_lt.mpr hhigh
    refine ⟨by rw [hentry hready, if_neg hnot], ?_⟩
    rw [vmmGetPhysical_eq, vmmGetPhysical_eq, htrans hready, if_neg hnot, hready']

end BootMap

/-- On a machine with 4096 free frames `vmm_init` has enough of them. -/
theorem vmmInit_exact_sample :
    ∃ s, vmmInit (freeListPmm 256#32 0x100000#32).toPmmOps 0x200000#32
        (vmmStatic (fun _ _ => 0#32) sampleFrames) = some s ∧ s.ready ∧
      ∀ v f, v.PageAligned → (vmmGetPhysical v s = some f ↔ IdentityAndHigh 0x1000000#32 v f) := by
  obtain ⟨s, hs, hexact⟩ := vmmInit_exact (freeListPmm 256#32 0x100000#32).lawful 0x200000#32
    (fun _ _ => 0#32) sampleFrames
  obtain ⟨s', hs', hready, -⟩ := vmmInit_supplied (k := 0)
    ((sampleFrames_supplies 256#32 0x100000#32).mono (by decide)) 0x200000#32 (fun _ _ => 0#32)
  obtain rfl := Option.some.inj (hs.symm.trans hs')
  exact ⟨s, hs, hready, (hexact hready).1⟩

end Microkernel.Vmm
