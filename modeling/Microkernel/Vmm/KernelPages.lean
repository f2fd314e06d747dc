import Microkernel.Vmm.AddressSpace
import Microkernel.Vmm.AllocPages

/-! # Pages for the kernel

`vmm_alloc_pages`, `vmm_free_pages` and the heap map pages without the user bit. Tables that let the kernel
write everywhere and ring 3 nowhere stay such, so an access reaches its page exactly when it is the
kernel's and the page is mapped.

* **`KernelOnly.allocPages`, `KernelOnly.freePages`** — both functions keep the tables such.
* **`KernelOnly.reaches_iff`** — what an access then reaches.

Nothing in the kernel maps a page with the user bit, except for calls of `vmm_map_page` by a caller;
`Vmm/UserAccess` is about those.
-/

namespace Microkernel.Vmm

open Paging (pageOf Access)

section KernelOnly
variable {σ : Type*} {P : LawfulPmm σ} {s : VmmState σ}

/-- Directory entries of the low half are taken out. -/
theorem VmmState.KernelOnly.unmapIdentity (h : s.KernelOnly) : (vmmUnmapIdentity s).KernelOnly := by
  refine ⟨h.directory.unmapIdentity, fun i k hk hpresent => ?_⟩
  have htarget : entryTarget ((vmmUnmapIdentity s).pd i) = some (entryFrame ((vmmUnmapIdentity s).pd i)) :=
    if_pos hpresent
  rw [vmmUnmapIdentity_target htarget] at hpresent ⊢
  rw [(vmmUnmapIdentity_rest s).1]
  exact h.entries i k hk hpresent

/-- A page of the heap. -/
theorem VmmState.KernelOnly.mapFreshPage (h : s.KernelOnly) (v : U32) :
    (mapFreshPage P v s).1.KernelOnly := by
  obtain ⟨t, ht⟩ : ∃ t : VmmState σ, t = { s with pmm := (P.allocPage s.pmm).2 } := ⟨_, rfl⟩
  have ht' : t.KernelOnly := h.congr (by rw [ht]) (by rw [ht])
  unfold Vmm.mapFreshPage
  dsimp only
  rw [← ht]
  split
  · exact ht'
  · have hmap := ht'.mapPage P.lawful v (P.allocPage s.pmm).1
    split
    · exact hmap.congr rfl rfl
    · exact hmap

/-- The loop of `vmm_alloc_pages`. -/
theorem VmmState.KernelOnly.mapFreshPages (h : s.KernelOnly) (start : U32) (n : ℕ) (i : U32) :
    (mapFreshPages P start n i s).1.KernelOnly := by
  induction n generalizing i s with
  | zero => exact h
  | succ n ih =>
    have hnext := h.mapFreshPage (P := P) (start + i * vmmPageSize)
    unfold Vmm.mapFreshPages
    dsimp only
    split
    · exact ih hnext _
    · exact hnext

/-- A page is released. -/
theorem VmmState.KernelOnly.release (h : s.KernelOnly) (v : U32) (pmm : σ) :
    (vmmUnmapPage v { s with pmm := pmm }).KernelOnly := by
  have hcongr : VmmState.KernelOnly { s with pmm := pmm } := h.congr rfl rfl
  exact hcongr.unmapPage v

/-- The rollback. -/
theorem VmmState.KernelOnly.rollbackPages (h : s.KernelOnly) (start : U32) (n : ℕ) (j : U32) :
    (rollbackPages P start n j s).KernelOnly := by
  induction n generalizing j s with
  | zero => exact h
  | succ n ih =>
    unfold Vmm.rollbackPages
    refine ih ?_ _
    unfold rollbackPage
    split
    · exact h.release _ _
    · exact h

/-- **`vmm_alloc_pages`** maps for the kernel alone. -/
theorem VmmState.KernelOnly.allocPages (h : s.KernelOnly) (count : U32) :
    (vmmAllocPages P count s).1.KernelOnly := by
  by_cases hrej : s.Rejects count
  · rw [vmmAllocPages_rejects hrej]
    exact h
  unfold VmmState.Rejects at hrej
  simp only [not_or, not_not] at hrej
  obtain ⟨hcount, hready, hne, htotal⟩ := hrej
  obtain ⟨t, ht⟩ : ∃ t : VmmState σ, t = { s with nextVaddr := s.nextVaddr + count * vmmPageSize } :=
    ⟨_, rfl⟩
  have ht' : t.KernelOnly := h.congr (by rw [ht]) (by rw [ht])
  have hmap := ht'.mapFreshPages (P := P) s.nextVaddr count.toNat 0#32
  have hcheck : ¬ (count = 0#32 ∨ ¬ s.ready ∨ s.nextVaddr = 0#32) := by simp [hcount, hready, hne]
  simp only [vmmAllocPages, if_neg hcheck, if_neg htotal, ← ht]
  split
  · exact hmap
  · exact hmap.rollbackPages _ _ _

/-- **`vmm_free_pages`** maps nothing. -/
theorem VmmState.KernelOnly.freePages (h : s.KernelOnly) (p count : U32) :
    (vmmFreePages P p count s).KernelOnly := by
  have hloop : ∀ n i (s : VmmState σ), s.KernelOnly → (freeMappedPages P p n i s).KernelOnly := by
    intro n
    induction n with
    | zero => exact fun _ _ h => h
    | succ n ih =>
      intro i s h
      unfold freeMappedPages
      refine ih _ _ ?_
      unfold freeMappedPage
      split
      · exact h.release _ _
      · exact h.unmapPage _
  unfold vmmFreePages
  split
  · exact h
  · exact hloop _ _ s h

/-- **What an access reaches**: ring 3 nothing, the kernel what is mapped. -/
theorem VmmState.KernelOnly.reaches_iff (h : s.KernelOnly) (wp : Bool) (a : Access) :
    (∃ x, a.outcome wp (s.tables.walk (pageOf a.address)) = .reaches x) ↔
      a.user = false ∧ s.translate (pageAddr (pageOf a.address)) ≠ none := by
  rw [h.walk]
  cases s.translate (pageAddr (pageOf a.address)) with
  | none => simp [Access.outcome]
  | some f =>
    cases huser : a.user <;> simp [Access.outcome, Paging.Translation.allows, huser]

end KernelOnly

end Microkernel.Vmm
