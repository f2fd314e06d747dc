import Microkernel.Vmm.PageAccount
import Microkernel.Vmm.PagedCalls

/-! # Runs of fresh pages over physical memory

`vmm_alloc_pages` and `vmm_free_pages` over the physical memory. The pages that they map are not those of
the direct map, so the pointers to the page tables keep leading to their frames.

* **`InMemory`** has the functions; they answer `none` on a page fault.
* **`VmmState.Grounded`** is the invariant: every frame that can be given is one that the direct map has,
  and every other page that is mapped has a frame of its own.
* **`PagedMemory.Implements.allocPages`** and **`PagedMemory.Implements.freePages`** carry the two
  functions over, with the invariant. -/

namespace Microkernel.Vmm

open Paging (pageOf)

/-! ### The functions -/

namespace InMemory
variable {σ : Type*} (P : LawfulPmm σ)

/-- Request a frame and map the page to it, and give the frame back when that fails. The frame, and whether
the page is mapped. -/
def mapFreshPage (virt : U32) (m : PagedMemory σ) : Option (PagedMemory σ × U32 × Bool) :=
  let (phys, pmm) := P.allocPage m.pmm
  let m := { m with pmm := pmm }
  if phys = 0#32 then some (m, phys, false)
  else
    (vmmMapPage P.toPmmOps virt phys (ptePresent ||| pteWritable) m).map fun ret =>
      if ret.2 ≠ 0 then ({ ret.1 with pmm := P.freePage phys ret.1.pmm }, phys, false)
      else (ret.1, phys, true)

/-- The loop of `vmm_alloc_pages` from page `i` on, with the pages that are left; whether all were
mapped. -/
def mapFreshPages (start : U32) : ℕ → U32 → PagedMemory σ → Option (PagedMemory σ × Bool)
  | 0, _, m => some (m, true)
  | n + 1, i, m =>
      (mapFreshPage P (start + i * vmmPageSize) m).bind fun ret =>
        if ret.2.2 then mapFreshPages start n (i + 1#32) ret.1 else some (ret.1, false)

/-- One round of the rollback. -/
def rollbackPage (virt : U32) (m : PagedMemory σ) : Option (PagedMemory σ) :=
  (vmmGetPhysical virt m).bind fun
    | some phys => vmmUnmapPage virt { m with pmm := P.freePage phys m.pmm }
    | none => some m

/-- The rollback of `vmm_alloc_pages` from page `j` on, with the pages that are left. -/
def rollbackPages (start : U32) : ℕ → U32 → PagedMemory σ → Option (PagedMemory σ)
  | 0, _, m => some m
  | n + 1, j, m =>
      (rollbackPage P (start + j * vmmPageSize) m).bind (rollbackPages start n (j + 1#32))

/-- `vmm_alloc_pages(count)`: the first address, or `NULL`. -/
def vmmAllocPages (count : U32) (m : PagedMemory σ) : Option (PagedMemory σ × U32) :=
  if count = 0#32 ∨ ¬ m.ready ∨ m.nextVaddr = 0#32 then some (m, 0#32)
  else
    let start := m.nextVaddr
    let totalBytes := count * vmmPageSize
    if totalBytes > 0xFFFFFFFF#32 - start then some (m, 0#32)
    else
      let m := { m with nextVaddr := start + totalBytes }
      (mapFreshPages P start count.toNat 0#32 m).bind fun ret =>
        if ret.2 then some (ret.1, start)
        else (rollbackPages P start count.toNat 0#32 ret.1).map (·, 0#32)

/-- One round of `vmm_free_pages`. -/
def freeMappedPage (virt : U32) (m : PagedMemory σ) : Option (PagedMemory σ) :=
  (vmmGetPhysical virt m).bind fun
    | some phys => vmmUnmapPage virt { m with pmm := P.freePage phys m.pmm }
    | none => vmmUnmapPage virt m

/-- The loop of `vmm_free_pages` from page `i` on, with the pages that are left. -/
def freeMappedPages (base : U32) : ℕ → U32 → PagedMemory σ → Option (PagedMemory σ)
  | 0, _, m => some m
  | n + 1, i, m =>
      (freeMappedPage P (base + i * vmmPageSize) m).bind (freeMappedPages base n (i + 1#32))

/-- `vmm_free_pages(vaddr, count)`. -/
def vmmFreePages (vaddr count : U32) (m : PagedMemory σ) : Option (PagedMemory σ) :=
  if vaddr = 0#32 ∨ count = 0#32 ∨ ¬ m.ready then some m
  else freeMappedPages P vaddr count.toNat 0#32 m

end InMemory

/-! ### The invariant -/

/-- The address is the pointer to one of these frames. -/
def IsPointer (D : U32 → Prop) (v : U32) : Prop := ∃ f, D f ∧ physToVirt f = v

/-- **The invariant**: the direct map has the page tables and every frame that can be given, which are
among `D`; every mapped page that is no pointer to one of `D` has a frame in use of its own that holds no
page table; and the pages from `base` on, behind all those pointers, have frames of `D`. -/
structure VmmState.Grounded {σ : Type*} (s : VmmState σ) (P : LawfulPmm σ) (D : U32 → Prop)
    (base : ℕ) : Prop where
  anchored : s.Anchored P.InUse D
  free : ∀ f, ¬ P.InUse s.pmm f → D f
  area : s.AllocArea P (IsPointer D) 0 (2 ^ 32)
  given : ∀ v f, v.PageAligned → base ≤ v.toNat → s.translate v = some f → D f
  pointers : ∀ f, D f → (physToVirt f).toNat < base

section Grounded
variable {σ : Type*} {P : LawfulPmm σ} {D : U32 → Prop} {base : ℕ} {s s' : VmmState σ}
  {m : PagedMemory σ} {All : Prop} {v f : U32}

/-- The pages behind the direct map. -/
theorem VmmState.Grounded.not_isPointer (h : s.Grounded P D base) (hv : base ≤ v.toNat) :
    ¬ IsPointer D v := by
  rintro ⟨f, hf, rfl⟩
  have hlt := h.pointers f hf
  omega

/-- Only the allocator has changed. -/
theorem VmmState.Anchored.congr {InUse : σ → U32 → Prop} (h : s.Anchored InUse D) {pmm : σ}
    (hwf : ({ s with pmm := pmm } : VmmState σ).WellFormed InUse) :
    ({ s with pmm := pmm } : VmmState σ).Anchored InUse D :=
  ⟨hwf, h.openDirectory, h.ready, h.tables, h.direct⟩

/-- A request is answered with one of the frames. -/
theorem gives_of_free (h : ∀ f, ¬ P.InUse s.pmm f → D f) : Gives P.toPmmOps D s.pmm :=
  fun hne => h _ (P.lawful.fresh s.pmm hne).2.1

/-- The frames that are left after a request. -/
theorem VmmState.Grounded.free_request (h : s.Grounded P D base) (f : U32)
    (hf : ¬ P.InUse (P.allocPage s.pmm).2 f) : D f :=
  h.free f fun hin => hf (P.lawful.mono s.pmm f hin)

/-- Other static data do not matter. -/
theorem VmmState.Grounded.watermark (h : s.Grounded P D base) (x : U32) :
    ({ s with nextVaddr := x } : VmmState σ).Grounded P D base :=
  ⟨⟨⟨h.anchored.wellFormed.inUse, h.anchored.wellFormed.injective⟩, h.anchored.openDirectory,
    h.anchored.ready, h.anchored.tables, h.anchored.direct⟩, h.free,
    ⟨⟨h.area.wellFormed.inUse, h.area.wellFormed.injective⟩, h.area.frontier, h.area.owned,
      h.area.injective⟩, h.given, h.pointers⟩

/-- The watermark is in no page table. -/
theorem PagedMemory.Implements.watermark (hm : m.Implements All s) (x : U32) :
    PagedMemory.Implements All { m with nextVaddr := x } { s with nextVaddr := x } :=
  ⟨hm.pd, hm.ready, rfl, hm.directMapEnd, hm.pmm, hm.words⟩

/-- The directory entries of a fresh page. -/
theorem VmmState.OpenDirectory.mapFreshPage (h : s.OpenDirectory) (v : U32) :
    (mapFreshPage P v s).1.OpenDirectory := by
  obtain ⟨t, ht⟩ : ∃ t : VmmState σ, t = { s with pmm := (P.allocPage s.pmm).2 } := ⟨_, rfl⟩
  have ht' : t.OpenDirectory := by
    rw [ht]
    exact h
  unfold Vmm.mapFreshPage
  dsimp only
  rw [← ht]
  split
  · exact ht'
  · have hmap := ht'.mapPage P.lawful v (P.allocPage s.pmm).1 (ptePresent ||| pteWritable)
    split <;> exact hmap

/-- **A fresh page** that is no pointer keeps the invariant. -/
theorem VmmState.Grounded.mapFreshPage (h : s.Grounded P D base) (hv : ¬ IsPointer D v) :
    (mapFreshPage P v s).1.Grounded P D base := by
  have hopen := h.anchored.openDirectory.mapFreshPage (P := P) v
  obtain ⟨s₁, phys₁, ok₁, hres₁, -, harea, -⟩ := h.area.mapFresh le_rfl (.inl v.isLt)
  obtain ⟨s', phys, ok, hres, hwf, hext, hcase⟩ := mapFreshPage_spec h.anchored.wellFormed v
  obtain ⟨rfl, -⟩ := Prod.mk.inj (hres₁.symm.trans hres)
  rw [hres] at hopen ⊢
  -- what is mapped was mapped before, or is the new page
  have htrans : ∀ w, w.PageAligned → s₁.translate w = s.translate w ∨
      w = v ∧ s₁.translate w = some phys ∧ ¬ P.InUse s.pmm phys := by
    intro w hw
    rcases hcase with ⟨-, hentry⟩ | ⟨-, -, -, -, hnot, -, -, htrans⟩
    · left
      rw [VmmState.translate_eq, hentry, ← VmmState.translate_eq]
    · rw [htrans w hw]
      by_cases hwv : w = v
      · rw [if_pos hwv]
        exact .inr ⟨hwv, rfl, hnot⟩
      · exact .inl (if_neg hwv)
  refine ⟨⟨hwf, hopen, hext.ready.trans h.anchored.ready, fun f hf => ?_, fun f hf hD => ?_⟩,
    fun f hf => h.free f fun hin => hf (hext.inUse f hin), harea, fun w f hw hb hf => ?_, h.pointers⟩
  · obtain ⟨i, hi⟩ := hf
    rcases hext.fresh i f hi with hi | hi
    · exact h.anchored.tables f ⟨i, hi⟩
    · exact h.free f hi
  · rcases htrans _ (physToVirt_aligned hf) with heq | ⟨heq, -⟩
    · rw [heq]
      exact h.anchored.direct f hf hD
    · exact absurd ⟨f, hD, heq⟩ hv
  · rcases htrans w hw with heq | ⟨-, heq, hnot⟩
    · rw [heq] at hf
      exact h.given w f hw hb hf
    · rw [heq] at hf
      obtain rfl := Option.some.inj hf
      exact h.free phys hnot

/-- **Unmapping** a page that is no pointer keeps the invariant. -/
theorem VmmState.Grounded.unmap (h : s.Grounded P D base) (hv : ¬ IsPointer D v) :
    (vmmUnmapPage v s).Grounded P D base := by
  have hanchored := h.anchored.unmapPage fun f hD heq => hv ⟨f, hD, heq⟩
  obtain ⟨-, -, hpmm, -⟩ := vmmUnmapPage_entry h.anchored.wellFormed v
  obtain ⟨-, -, htrans⟩ := vmmUnmapPage_spec h.anchored.wellFormed v
  refine ⟨hanchored, fun f hf => h.free f (hpmm ▸ hf), h.area.unmap v, fun w f hw hb hf => ?_, h.pointers⟩
  rw [htrans w hw] at hf
  split at hf
  · exact absurd hf (by simp)
  · exact h.given w f hw hb hf

/-- **Releasing** a page behind the direct map, frame first, keeps it. -/
theorem VmmState.Grounded.release (h : s.Grounded P D base) (hv : v.PageAligned) (hb : base ≤ v.toNat)
    (hf : s.translate v = some f) :
    (vmmUnmapPage v { s with pmm := P.freePage f s.pmm }).Grounded P D base := by
  have hptr := h.not_isPointer hb
  obtain ⟨huse, hne⟩ := h.area.owned v f hv (Nat.zero_le _) hptr hf
  have hwf := h.anchored.wellFormed.free huse hne
  obtain ⟨-, -, hpmm, -⟩ := vmmUnmapPage_entry hwf v
  obtain ⟨-, -, htrans⟩ := vmmUnmapPage_spec hwf v
  refine ⟨(h.anchored.congr hwf).unmapPage fun g hD heq => hptr ⟨g, hD, heq⟩, fun g hg => ?_,
    h.area.release hv (Nat.zero_le _) hptr hf, fun w g hw hbw hg => ?_, h.pointers⟩
  · by_cases hgf : g = f
    · rw [hgf]
      exact h.given v f hv hb hf
    · refine h.free g fun hin => hg ?_
      rw [hpmm]
      exact P.free_mono s.pmm g f hin huse hgf
  · rw [htrans w hw] at hg
    split at hg
    · exact absurd hg (by simp)
    · exact h.given w g hw hbw hg

/-! ### One page in the memory -/

/-- **A fresh page** in the memory, when the frame for a new page table is one that the direct map has. -/
theorem PagedMemory.Implements.mapFreshPage (hm : m.Implements All s) (h : s.Anchored P.InUse D) (v : U32)
    (hgives : ¬ IsPresent (s.pd (pdIndex v)) → Gives P.toPmmOps D (P.allocPage s.pmm).2) :
    ∃ m', InMemory.mapFreshPage P v m = some (m', (mapFreshPage P v s).2) ∧
      m'.Implements All (mapFreshPage P v s).1 := by
  obtain ⟨phys, pmm, halloc⟩ : ∃ phys pmm, P.allocPage s.pmm = (phys, pmm) := ⟨_, _, rfl⟩
  have hwf : ({ s with pmm := pmm } : VmmState σ).WellFormed P.InUse := by
    have hmono := P.lawful.mono s.pmm
    rw [halloc] at hmono
    exact ⟨fun i f hf => hmono f (h.wellFormed.inUse i f hf), h.wellFormed.injective⟩
  have h' := h.congr hwf
  have hm' := hm.request pmm
  unfold InMemory.mapFreshPage Vmm.mapFreshPage
  simp only [hm.pmm, halloc] at hgives ⊢
  by_cases hphys : phys = 0#32
  · simp only [if_pos hphys]
    exact ⟨_, rfl, hm'⟩
  simp only [if_neg hphys]
  obtain ⟨m₁, hmap, himpl, -⟩ := hm'.mapPage P.lawful h'.wellFormed h'.openDirectory  phys
    (ptePresent ||| pteWritable) fun _ _ => h'.reachesTable hm' P.lawful hgives
  obtain ⟨s₁, r, hres⟩ : ∃ s₁ r, vmmMapPage P.toPmmOps v phys (ptePresent ||| pteWritable)
      { s with pmm := pmm } = (s₁, r) := ⟨_, _, Prod.mk.eta.symm⟩
  rw [hres] at hmap himpl ⊢
  rw [hmap, Option.map_some]
  by_cases hr : r ≠ 0
  · simp only [if_pos hr]
    rw [himpl.pmm]
    exact ⟨_, rfl, himpl.request _⟩
  · simp only [if_neg hr]
    exact ⟨_, rfl, himpl⟩

/-- The frame under a page. -/
theorem VmmState.Grounded.getPhysical (h : s.Grounded P D base) (hm : m.Implements All s) (v : U32) :
    InMemory.vmmGetPhysical v m = some (vmmGetPhysical v s) :=
  hm.getPhysical fun hi => h.anchored.reachesEntry hm hi

/-- A page that is mapped is released, frame first. -/
theorem VmmState.Grounded.releasePage (h : s.Grounded P D base) (hm : m.Implements All s)
    (hb : base ≤ v.toNat) (hf : vmmGetPhysical v s = some f) :
    ∃ m', InMemory.vmmUnmapPage v { m with pmm := P.freePage f m.pmm } = some m' ∧
      m'.Implements All (vmmUnmapPage v { s with pmm := P.freePage f s.pmm }) ∧
      (vmmUnmapPage v { s with pmm := P.freePage f s.pmm }).Grounded P D base := by
  rw [vmmGetPhysical_eq] at hf
  by_cases hget : s.ready ∧ v.PageAligned
  · rw [if_pos hget] at hf
    obtain ⟨huse, hne⟩ := h.area.owned v f hget.2 (Nat.zero_le _) (h.not_isPointer hb) hf
    have h' := h.anchored.congr (h.anchored.wellFormed.free huse hne)
    obtain ⟨m', hres, himpl, -⟩ := (hm.request (P.freePage f s.pmm)).unmapPage
      fun _ hi => h'.reachesEntry (hm.request _) hi
    rw [hm.pmm]
    exact ⟨m', hres, himpl, h.release hget.2 hb hf⟩
  · rw [if_neg hget] at hf
    exact absurd hf (by simp)

/-- One round of the rollback. -/
theorem VmmState.Grounded.rollbackPage (h : s.Grounded P D base) (hm : m.Implements All s)
    (hb : base ≤ v.toNat) :
    ∃ m', InMemory.rollbackPage P v m = some m' ∧ m'.Implements All (rollbackPage P v s) ∧
      (rollbackPage P v s).Grounded P D base := by
  unfold InMemory.rollbackPage Vmm.rollbackPage
  rw [h.getPhysical hm, Option.bind_some]
  cases hf : vmmGetPhysical v s with
  | none => exact ⟨m, rfl, hm, h⟩
  | some f => exact h.releasePage hm hb hf

/-- One round of `vmm_free_pages`. -/
theorem VmmState.Grounded.freeMappedPage (h : s.Grounded P D base) (hm : m.Implements All s)
    (hb : base ≤ v.toNat) :
    ∃ m', InMemory.freeMappedPage P v m = some m' ∧ m'.Implements All (freeMappedPage P v s) ∧
      (freeMappedPage P v s).Grounded P D base := by
  unfold InMemory.freeMappedPage Vmm.freeMappedPage
  rw [h.getPhysical hm, Option.bind_some]
  cases hf : vmmGetPhysical v s with
  | none =>
    obtain ⟨m', hres, himpl, -⟩ := hm.unmapPage  fun _ hi => h.anchored.reachesEntry hm hi
    exact ⟨m', hres, himpl, h.unmap (h.not_isPointer hb)⟩
  | some f => exact h.releasePage hm hb hf

/-! ### The loops -/

variable {start i j : U32} {n : ℕ}

/-- The loop that maps fresh pages, none of them a pointer. -/
theorem VmmState.Grounded.mapFreshPages (n : ℕ) {i : U32} (h : s.Grounded P D base)
    (hm : m.Implements All s)
    (hpages : ∀ k < n, ¬ IsPointer D (start + (i + BitVec.ofNat 32 k) * vmmPageSize)) :
    ∃ m', InMemory.mapFreshPages P start n i m = some (m', (mapFreshPages P start n i s).2) ∧
      m'.Implements All (mapFreshPages P start n i s).1 ∧
      (mapFreshPages P start n i s).1.Grounded P D base := by
  induction n generalizing i s m with
  | zero => exact ⟨m, rfl, hm, h⟩
  | succ n ih =>
    have hfirst := hpages 0 (Nat.succ_pos n)
    rw [page_zero] at hfirst
    have h₁ := h.mapFreshPage hfirst
    obtain ⟨m₁, hres, hm₁⟩ := hm.mapFreshPage h.anchored (start + i * vmmPageSize)
      fun _ => gives_of_free (s := { s with pmm := (P.allocPage s.pmm).2 }) h.free_request
    unfold InMemory.mapFreshPages Vmm.mapFreshPages
    rw [hres, Option.bind_some]
    dsimp only
    by_cases hok : (Vmm.mapFreshPage P (start + i * vmmPageSize) s).2.2 = true
    · rw [if_pos hok, if_pos hok]
      exact ih h₁ hm₁ fun k hk => by
        rw [page_succ]
        exact hpages (k + 1) (Nat.succ_lt_succ hk)
    · rw [if_neg hok, if_neg hok]
      exact ⟨m₁, rfl, hm₁, h₁⟩

/-- The rollback. -/
theorem VmmState.Grounded.rollbackPages (n : ℕ) {j : U32} (h : s.Grounded P D base)
    (hm : m.Implements All s)
    (hpages : ∀ k < n, base ≤ (start + (j + BitVec.ofNat 32 k) * vmmPageSize).toNat) :
    ∃ m', InMemory.rollbackPages P start n j m = some m' ∧
      m'.Implements All (rollbackPages P start n j s) ∧ (rollbackPages P start n j s).Grounded P D base := by
  induction n generalizing j s m with
  | zero => exact ⟨m, rfl, hm, h⟩
  | succ n ih =>
    have hfirst := hpages 0 (Nat.succ_pos n)
    rw [page_zero] at hfirst
    obtain ⟨m₁, hres, hm₁, h₁⟩ := h.rollbackPage hm hfirst
    unfold InMemory.rollbackPages Vmm.rollbackPages
    rw [hres, Option.bind_some]
    exact ih h₁ hm₁ fun k hk => by
      rw [page_succ]
      exact hpages (k + 1) (Nat.succ_lt_succ hk)

/-- The loop of `vmm_free_pages`. -/
theorem VmmState.Grounded.freeMappedPages (n : ℕ) {i : U32} (h : s.Grounded P D base)
    (hm : m.Implements All s)
    (hpages : ∀ k < n, base ≤ (start + (i + BitVec.ofNat 32 k) * vmmPageSize).toNat) :
    ∃ m', InMemory.freeMappedPages P start n i m = some m' ∧
      m'.Implements All (freeMappedPages P start n i s) ∧
      (freeMappedPages P start n i s).Grounded P D base := by
  induction n generalizing i s m with
  | zero => exact ⟨m, rfl, hm, h⟩
  | succ n ih =>
    have hfirst := hpages 0 (Nat.succ_pos n)
    rw [page_zero] at hfirst
    obtain ⟨m₁, hres, hm₁, h₁⟩ := h.freeMappedPage hm hfirst
    unfold InMemory.freeMappedPages Vmm.freeMappedPages
    rw [hres, Option.bind_some]
    exact ih h₁ hm₁ fun k hk => by
      rw [page_succ]
      exact hpages (k + 1) (Nat.succ_lt_succ hk)

/-! ### The two functions -/

/-- A request is turned away before anything is changed. -/
def PagedMemory.Rejects (m : PagedMemory σ) (count : U32) : Prop :=
  count = 0#32 ∨ ¬ m.ready ∨ m.nextVaddr = 0#32 ∨ count * vmmPageSize > 0xFFFFFFFF#32 - m.nextVaddr

/-- Whether a request is turned away is read off the statics. -/
theorem PagedMemory.Implements.rejects_iff (hm : m.Implements All s) {count : U32} :
    m.Rejects count ↔ s.Rejects count := by
  unfold PagedMemory.Rejects VmmState.Rejects
  rw [hm.ready, hm.nextVaddr]

/-- Then nothing happens. -/
theorem vmmAllocPages_rejects_inMemory {count : U32} (h : m.Rejects count) :
    InMemory.vmmAllocPages P count m = some (m, 0#32) := by
  unfold InMemory.vmmAllocPages
  rcases h with h | h | h | h
  · rw [if_pos (.inl h)]
  · rw [if_pos (.inr (.inl h))]
  · rw [if_pos (.inr (.inr h))]
  · split
    · rfl
    · exact if_pos h

/-- A request that passes the checks. -/
theorem vmmAllocPages_passes_inMemory {count : U32} (h : ¬ m.Rejects count) :
    InMemory.vmmAllocPages P count m =
      (InMemory.mapFreshPages P m.nextVaddr count.toNat 0#32
        { m with nextVaddr := m.nextVaddr + count * vmmPageSize }).bind fun ret =>
        if ret.2 then some (ret.1, m.nextVaddr)
        else (InMemory.rollbackPages P m.nextVaddr count.toNat 0#32 ret.1).map (·, 0#32) := by
  unfold PagedMemory.Rejects at h
  simp only [not_or] at h
  obtain ⟨hcount, hready, hne, htotal⟩ := h
  unfold InMemory.vmmAllocPages
  rw [if_neg (by simp only [not_or]; exact ⟨hcount, hready, hne⟩)]
  dsimp only
  rw [if_neg htotal]

/-- **`vmm_alloc_pages`** does the same in the memory, with the same answer, when it is turned away by a
check or its range lies behind the direct map and does not wrap around. -/
theorem VmmState.Grounded.allocPages (h : s.Grounded P D base) (hm : m.Implements All s) {count : U32}
    (hrange : s.Rejects count ∨ base ≤ s.nextVaddr.toNat ∧
      s.nextVaddr.toNat + count.toNat * 4096 ≤ 2 ^ 32) :
    ∃ m', InMemory.vmmAllocPages P count m = some (m', (vmmAllocPages P count s).2) ∧
      m'.Implements All (vmmAllocPages P count s).1 ∧ (vmmAllocPages P count s).1.Grounded P D base := by
  by_cases hrej : s.Rejects count
  · rw [vmmAllocPages_rejects hrej]
    exact ⟨m, vmmAllocPages_rejects_inMemory (hm.rejects_iff.mpr hrej), hm, h⟩
  obtain ⟨hbase, hend⟩ := hrange.resolve_left hrej
  have hpages : ∀ k < count.toNat,
      base ≤ (s.nextVaddr + (0#32 + BitVec.ofNat 32 k) * vmmPageSize).toNat := by
    intro k hk
    rw [page_toNat hk hend]
    exact hbase.trans (Nat.le_add_right _ _)
  obtain ⟨m₁, hres₁, hm₁, h₁⟩ := (h.watermark (s.nextVaddr + count * vmmPageSize)).mapFreshPages
    count.toNat (i := 0#32) (hm.watermark _) fun k hk => h.not_isPointer (hpages k hk)
  rw [vmmAllocPages_passes_inMemory fun hno => hrej (hm.rejects_iff.mp hno), hm.nextVaddr, hres₁,
    Option.bind_some]
  unfold VmmState.Rejects at hrej
  simp only [not_or, not_not] at hrej
  obtain ⟨hcount, hready, hne, htotal⟩ := hrej
  have hcheck : ¬ (count = 0#32 ∨ ¬ s.ready ∨ s.nextVaddr = 0#32) := by simp [hcount, hready, hne]
  unfold Vmm.vmmAllocPages
  simp only [if_neg hcheck, if_neg htotal]
  split
  · exact ⟨m₁, rfl, hm₁, h₁⟩
  · obtain ⟨m₂, hres₂, hm₂, h₂⟩ := h₁.rollbackPages count.toNat (j := 0#32) hm₁ hpages
    exact ⟨m₂, congrArg (Option.map _) hres₂, hm₂, h₂⟩

/-- **`vmm_free_pages`** does the same in the memory, for a range behind the direct map. -/
theorem VmmState.Grounded.freePages (h : s.Grounded P D base) (hm : m.Implements All s) {p count : U32}
    (hbase : base ≤ p.toNat) (hend : p.toNat + count.toNat * 4096 ≤ 2 ^ 32) :
    ∃ m', InMemory.vmmFreePages P p count m = some m' ∧ m'.Implements All (vmmFreePages P p count s) ∧
      (vmmFreePages P p count s).Grounded P D base := by
  unfold InMemory.vmmFreePages Vmm.vmmFreePages
  rw [hm.ready]
  split
  · exact ⟨m, rfl, hm, h⟩
  · refine h.freeMappedPages count.toNat hm fun k hk => ?_
    rw [page_toNat hk hend]
    exact hbase.trans (Nat.le_add_right _ _)

/-- The frame of the page table of some directory entry. -/
def PagedMemory.IsTable (m : PagedMemory σ) (f : U32) : Prop := ∃ i, entryTarget (m.pd i) = some f

/-- The tables are those of the directory. -/
theorem PagedMemory.Implements.isTable_iff (hm : m.Implements All s) : m.IsTable f ↔ s.IsTable f := by
  unfold PagedMemory.IsTable VmmState.IsTable
  rw [hm.pd]

/-- A write to a page that is mapped returns. -/
theorem VmmState.Grounded.stores (h : s.Grounded P D base) (hm : m.Implements All s)
    (hf : s.translate (pageAddr (pageOf v)) = some f) (x : U32) : ∃ m', m.store v x = some m' := by
  apply Option.isSome_iff_exists.mp
  unfold PagedMemory.store
  rw [Option.isSome_map, hm.shows h.anchored.openDirectory, if_pos h.anchored.ready, hf]
  rfl

/-- **A write** that does not go through the pointer to a page table reaches none. -/
theorem VmmState.Grounded.implements_store (h : s.Grounded P D base) (hm : m.Implements False s)
    {m' : PagedMemory σ} {x : U32} (hv : ∀ f, m.IsTable f → pageOf v ≠ pageOf (physToVirt f))
    (hres : m.store v x = some m') : m'.Implements False s := by
  refine hm.storeOther hres fun g hg htable => ?_
  rw [hm.shows h.anchored.openDirectory, if_pos h.anchored.ready] at hg
  obtain ⟨f, hf, rfl⟩ := Option.map_eq_some_iff.mp hg
  have halign : U32.PageAligned f := by
    have hf' := hf
    rw [VmmState.translate_eq] at hf'
    obtain ⟨e, -, rfl⟩ := Option.map_eq_some_iff.mp hf'
    exact entryFrame_aligned e
  rw [pageAddr_pageOf halign] at htable
  by_cases hptr : IsPointer D (pageAddr (pageOf v))
  · -- the direct map leads to the frame that the pointer is for
    obtain ⟨f', hD, hf'⟩ := hptr
    have halign' : f'.PageAligned := by
      have hva := pageAddr_aligned (pageOf v)
      rw [← hf', U32.pageAligned_iff] at hva
      rw [U32.pageAligned_iff]
      unfold physToVirt kernelVirtOffset at hva
      bv_omega
    rw [← hf', h.anchored.direct f' halign' hD] at hf
    obtain rfl := Option.some.inj hf
    refine hv f' (hm.isTable_iff.mpr htable) ?_
    rw [hf', pageOf_pageAddr]
  · obtain ⟨-, hne⟩ := h.area.owned _ _ (pageAddr_aligned _) (Nat.zero_le _) hptr hf
    obtain ⟨i, hi⟩ := htable
    exact hne i hi

end Grounded

/-! ### What is found -/

/-- The frame of a page: `vmm_get_physical` gives it, and the processor finds it. -/
def PagedMemory.Finds {σ : Type*} (m : PagedMemory σ) (v f : U32) : Prop :=
  InMemory.vmmGetPhysical v m = some (some f) ∧
    (m.tables.walk (pageOf v)).map (·.frame) = some (pageOf f)

/-- A page that is not mapped: `vmm_is_mapped` says so, and the processor finds nothing. -/
def PagedMemory.Unmapped {σ : Type*} (m : PagedMemory σ) (v : U32) : Prop :=
  InMemory.vmmIsMapped v m = some 0 ∧ m.tables.walk (pageOf v) = none

section Found
variable {σ : Type*} {P : LawfulPmm σ} {D : U32 → Prop} {base : ℕ} {m : PagedMemory σ} {s : VmmState σ}
  {All : Prop} {v f : U32}

/-- What the processor finds. -/
theorem VmmState.Grounded.walk (h : s.Grounded P D base) (hm : m.Implements All s) (hv : v.PageAligned) :
    (m.tables.walk (pageOf v)).map (·.frame) = (s.translate v).map pageOf := by
  rw [hm.walk, VmmState.walk_frame h.anchored.openDirectory, pageAddr_pageOf hv]

/-- **Both agree with the tables.** -/
theorem VmmState.Grounded.finds_iff (h : s.Grounded P D base) (hm : m.Implements All s)
    (hv : v.PageAligned) : m.Finds v f ↔ s.translate v = some f := by
  unfold PagedMemory.Finds
  rw [h.getPhysical hm, h.walk hm hv, vmmGetPhysical_eq, if_pos ⟨h.anchored.ready, hv⟩]
  constructor
  · exact fun hf => Option.some.inj hf.1
  · intro hf
    rw [hf]
    exact ⟨rfl, rfl⟩

/-- Above the direct map an aligned address is unmapped in memory when the tables do not translate it. -/
theorem VmmState.Grounded.unmapped_iff (h : s.Grounded P D base) (hm : m.Implements All s)
    (hv : v.PageAligned) : m.Unmapped v ↔ s.translate v = none := by
  unfold PagedMemory.Unmapped
  have hwalk := h.walk hm hv
  rw [hm.isMapped fun hi => h.anchored.reachesEntry hm hi, vmmIsMapped_eq,
    if_pos ⟨h.anchored.ready, hv⟩]
  cases hf : s.translate v with
  | none =>
    rw [hf] at hwalk
    simpa using Option.map_eq_none_iff.mp hwalk
  | some f => simp

end Found

/-! ### Recording what is given back -/

/-- The memory with the list of the frames that were taken back. -/
def PagedMemory.recorded {σ : Type*} (m : PagedMemory σ) (log : List U32) : PagedMemory (σ × List U32) :=
  ⟨m.pd, m.frames, m.ready, m.nextVaddr, m.directMapEnd, (m.pmm, log), m.events⟩

section Recorded
variable {σ : Type*} {P : LawfulPmm σ} {D : U32 → Prop} {base : ℕ} {m : PagedMemory σ} {s : VmmState σ}
  {All : Prop}

/-- Recording what is given back changes no memory. -/
theorem PagedMemory.Implements.recorded (hm : m.Implements All s) (log : List U32) :
    (m.recorded log).Implements All (s.recorded log) :=
  ⟨hm.pd, hm.ready, hm.nextVaddr, hm.directMapEnd, Prod.ext hm.pmm rfl, hm.words⟩

/-- The list changes nothing for the tables. -/
theorem VmmState.Grounded.recorded (h : s.Grounded P D base) (log : List U32) :
    (s.recorded log).Grounded P.recording D base :=
  ⟨⟨⟨h.anchored.wellFormed.inUse, h.anchored.wellFormed.injective⟩, h.anchored.openDirectory,
    h.anchored.ready, h.anchored.tables, h.anchored.direct⟩, h.free,
    ⟨⟨h.area.wellFormed.inUse, h.area.wellFormed.injective⟩, h.area.frontier, h.area.owned,
      h.area.injective⟩, h.given, h.pointers⟩

end Recorded

/-! ### Static data -/

section Static
variable {σ : Type*} {m m' m'' : PagedMemory σ} {v : U32}

/-- `g_vmm_ready` and the watermark are as before. -/
def PagedMemory.SameStatic (m m' : PagedMemory σ) : Prop :=
  m'.ready = m.ready ∧ m'.nextVaddr = m.nextVaddr

theorem PagedMemory.SameStatic.refl (m : PagedMemory σ) : m.SameStatic m := ⟨rfl, rfl⟩

/-- Keeping the statics twice is keeping them. -/
theorem PagedMemory.SameStatic.trans (h : m.SameStatic m') (h' : m'.SameStatic m'') : m.SameStatic m'' :=
  ⟨h'.1.trans h.1, h'.2.trans h.2⟩

/-- A store through a pointer keeps the statics. -/
theorem PagedMemory.store_static {x : U32} (h : m.store v x = some m') : m.SameStatic m' := by
  obtain ⟨f, -, rfl⟩ := Option.map_eq_some_iff.mp h
  exact ⟨rfl, rfl⟩

/-- So does `invlpg`. -/
theorem PagedMemory.invlpg_static (m : PagedMemory σ) (v : U32) : m.SameStatic (m.invlpg v) := by
  unfold PagedMemory.invlpg
  split <;> exact ⟨rfl, rfl⟩

/-- Clearing a page keeps the statics. -/
theorem InMemory.memzeroPage_static {n : ℕ} (h : InMemory.memzeroPage v n m = some m') :
    m.SameStatic m' := by
  induction n generalizing m' with
  | zero =>
    obtain rfl := Option.some.inj h
    exact .refl m
  | succ n ih =>
    obtain ⟨m₁, hm₁, hstore⟩ := Option.bind_eq_some_iff.mp h
    exact (ih hm₁).trans (PagedMemory.store_static hstore)

/-- `vmm_ensure_page_table` keeps the statics. -/
theorem InMemory.vmmEnsurePageTable_static {ops : PmmOps σ} {i : U32} {r : PagedMemory σ × U32}
    (h : InMemory.vmmEnsurePageTable ops i m = some r) : m.SameStatic r.1 := by
  unfold InMemory.vmmEnsurePageTable at h
  dsimp only at h
  split at h
  · obtain rfl := Option.some.inj h
    exact .refl m
  split at h
  · obtain rfl := Option.some.inj h
    exact ⟨rfl, rfl⟩
  · obtain ⟨m₁, hm₁, rfl⟩ := Option.map_eq_some_iff.mp h
    have hstatic := InMemory.memzeroPage_static hm₁
    exact ⟨hstatic.1, hstatic.2⟩

/-- `vmm_map_page` keeps the statics. -/
theorem InMemory.vmmMapPage_static {ops : PmmOps σ} {phys flags : U32} {r : PagedMemory σ × Int}
    (h : InMemory.vmmMapPage ops v phys flags m = some r) : m.SameStatic r.1 := by
  unfold InMemory.vmmMapPage at h
  split at h
  · obtain rfl := Option.some.inj h
    exact .refl m
  obtain ⟨⟨m₁, pt⟩, hm₁, hrest⟩ := Option.bind_eq_some_iff.mp h
  have hens : m.SameStatic m₁ := InMemory.vmmEnsurePageTable_static hm₁
  dsimp only at hrest
  split at hrest
  · obtain rfl := Option.some.inj hrest
    exact hens
  · obtain ⟨m₂, hm₂, rfl⟩ := Option.map_eq_some_iff.mp hrest
    refine PagedMemory.SameStatic.trans ?_
      ((PagedMemory.store_static hm₂).trans (PagedMemory.invlpg_static m₂ v))
    split
    · exact ⟨hens.1, hens.2⟩
    · exact hens

/-- `vmm_unmap_page` keeps the statics. -/
theorem InMemory.vmmUnmapPage_static (h : InMemory.vmmUnmapPage v m = some m') : m.SameStatic m' := by
  unfold InMemory.vmmUnmapPage at h
  split at h
  · obtain rfl := Option.some.inj h
    exact .refl m
  dsimp only at h
  split at h
  · obtain rfl := Option.some.inj h
    exact .refl m
  · obtain ⟨m₁, hm₁, rfl⟩ := Option.map_eq_some_iff.mp h
    exact (PagedMemory.store_static hm₁).trans (PagedMemory.invlpg_static m₁ v)

/-- A fresh page keeps the statics. -/
theorem InMemory.mapFreshPage_static {P : LawfulPmm σ} {r : PagedMemory σ × U32 × Bool}
    (h : InMemory.mapFreshPage P v m = some r) : m.SameStatic r.1 := by
  unfold InMemory.mapFreshPage at h
  dsimp only at h
  split at h
  · obtain rfl := Option.some.inj h
    exact ⟨rfl, rfl⟩
  · obtain ⟨r₁, hr₁, rfl⟩ := Option.map_eq_some_iff.mp h
    have hmap := InMemory.vmmMapPage_static hr₁
    split <;> exact ⟨hmap.1, hmap.2⟩

/-- **Mapping fresh pages** does not move the watermark. -/
theorem InMemory.mapFreshPages_static {P : LawfulPmm σ} {start : U32} (n : ℕ) {i : U32}
    {r : PagedMemory σ × Bool} (h : InMemory.mapFreshPages P start n i m = some r) : m.SameStatic r.1 := by
  induction n generalizing i m with
  | zero =>
    obtain rfl := Option.some.inj h
    exact .refl m
  | succ n ih =>
    obtain ⟨r₁, hr₁, hrest⟩ := Option.bind_eq_some_iff.mp h
    have hfirst := InMemory.mapFreshPage_static hr₁
    split at hrest
    · exact hfirst.trans (ih hrest)
    · obtain rfl := Option.some.inj hrest
      exact hfirst

/-- `vmm_unmap_identity` keeps the statics. -/
theorem InMemory.vmmUnmapIdentity_static (m : PagedMemory σ) :
    m.SameStatic (InMemory.vmmUnmapIdentity m) := by
  obtain ⟨-, hready, hnext, -⟩ := vmmUnmapIdentity_rest m.view
  have himpl := (m.implements_view True).unmapIdentity.1
  exact ⟨himpl.ready.trans hready, himpl.nextVaddr.trans hnext⟩

end Static

/-! ### The start -/

section Start
variable {σ : Type*} {P : LawfulPmm σ} {D : U32 → Prop} {base : ℕ} {s : VmmState σ} {All : Prop}
  {kernelEnd : U32} {frames : BitVec 20 → BitVec 10 → BitVec 32} {pmm : σ}

/-- **`vmm_init`** in the memory, when the allocator only gives frames below the end of the direct map. -/
theorem vmmInit_inMemory (hlow : ∀ f, ¬ P.InUse pmm f → f < vmmMapEnd P.toPmmOps kernelEnd pmm)
    (hinit : vmmInit P.toPmmOps kernelEnd (vmmStatic (frameTable frames) pmm) = some s) :
    ∃ m, InMemory.vmmInit P.toPmmOps kernelEnd (.static frames pmm) = some m ∧ m.Implements All s := by
  obtain ⟨-, hmax⟩ := vmmMapEnd_spec P.toPmmOps kernelEnd pmm
  obtain ⟨m, hres, himpl, -⟩ := (@vmmInit_implements _ _ _ _ All)
    (I := fun s => s.WellFormed P.InUse ∧ ∀ f, P.InUse pmm f → P.InUse s.pmm f) P.lawful
    (fun s addr virt ⟨hwf, hmono⟩ _ _ _ => by
      obtain ⟨s', r, hres, hwf', hext, -⟩ := vmmMapPage_spec P.lawful hwf virt addr
        (ptePresent ||| pteWritable)
      rw [hres]
      exact ⟨hwf', fun f hf => hext.inUse f (hmono f hf)⟩)
    (fun s ⟨_, hmono⟩ => by
      by_cases hne : (P.allocPage s.pmm).1 = 0#32
      · rw [hne]
        decide
      · have hlt := hlow _ fun hin => (P.lawful.fresh s.pmm hne).2.1 (hmono _ hin)
        rw [BitVec.lt_def] at hlt
        omega)
    ⟨(vmmCleared_spec P.InUse _ pmm).1, fun _ hf => hf⟩ hinit
  exact ⟨m, hres, himpl⟩

/-- **The invariant holds after `vmm_init` and `vmm_unmap_identity`.** -/
theorem vmmInit_grounded {table : U32 → U32 → U32} (hfree : ∀ f, ¬ P.InUse pmm f → D f)
    (hD : ∀ f, D f → f < vmmMapEnd P.toPmmOps kernelEnd pmm)
    (hbase : 0xC0000000 + (vmmMapEnd P.toPmmOps kernelEnd pmm).toNat ≤ base)
    (hinit : vmmInit P.toPmmOps kernelEnd (vmmStatic table pmm) = some s) (hready : s.ready) :
    (vmmUnmapIdentity s).Grounded P D base := by
  obtain ⟨-, hmax⟩ := vmmMapEnd_spec P.toPmmOps kernelEnd pmm
  have hoff : kernelVirtOffset.toNat = 0xC0000000 := rfl
  have hnat : ∀ f, D f → (physToVirt f).toNat = 0xC0000000 + f.toNat ∧ f.toNat < 2 ^ 30 := by
    intro f hf
    have hlt := hD f hf
    rw [BitVec.lt_def] at hlt
    unfold physToVirt kernelVirtOffset
    constructor <;> bv_omega
  obtain ⟨s', hinit', hwf, hmono, -⟩ := vmmInit_boot P.lawful kernelEnd table pmm
  obtain rfl := Option.some.inj (hinit.symm.trans hinit')
  obtain ⟨hwf', -, -⟩ := vmmUnmapIdentity_spec hwf
  have hpmm := (vmmUnmapIdentity_rest s).2.2.2.2
  have hfree' : ∀ f, ¬ P.InUse s.pmm f → D f := fun f hf => hfree f fun hin => hf (hmono f hin)
  obtain ⟨-, htables⟩ := vmmInit_tables (D := D) (J := fun p => ∀ f, P.InUse pmm f → P.InUse p f) P.lawful
    (fun p hp => ⟨fun hne => hfree _ fun hin => (P.lawful.fresh p hne).2.1 (hp _ hin),
      fun f hf => P.lawful.mono p f (hp f hf)⟩) (fun _ hf => hf) hinit
  have hanchored := vmmInit_anchored P.lawful hD hinit hready htables
  have hanchored' := hanchored.unmapIdentity fun f hf => (hnat f hf).2
  have htrans : ∀ v f, v.PageAligned → (vmmUnmapIdentity s).translate v = some f →
      kernelVirtOffset ≤ v ∧ v - kernelVirtOffset < vmmMapEnd P.toPmmOps kernelEnd pmm ∧
        f = v - kernelVirtOffset := by
    intro v f hv hf
    rw [vmmInit_directMap P.lawful hinit hready hv] at hf
    split at hf
    · rename_i hin
      exact ⟨hin.1, hin.2, (Option.some.inj hf).symm⟩
    · exact absurd hf (by simp)
  -- the other pages of the direct map have frames that cannot be given
  have hother : ∀ v, kernelVirtOffset ≤ v → ¬ IsPointer D v → ¬ D (v - kernelVirtOffset) :=
    fun v _ hptr hD => hptr ⟨_, hD, BitVec.sub_add_cancel ..⟩
  refine ⟨hanchored', fun f hf => hfree' f (hpmm ▸ hf), ⟨hwf', fun v _ _ => .inl v.isLt,
    fun v f hv _ hptr hf => ?_, fun v w f hv hw _ _ _ _ hfv hfw => ?_⟩, fun v f hv hb hf => ?_,
    fun f hf => ?_⟩
  · obtain ⟨hle, -, rfl⟩ := htrans v f hv hf
    have hnot := hother v hle hptr
    refine ⟨?_, fun i hi => hnot (hanchored'.tables _ ⟨i, hi⟩)⟩
    by_contra hfree
    exact hnot (hfree' _ (hpmm ▸ hfree))
  · obtain ⟨-, -, heq⟩ := htrans v f hv hfv
    obtain ⟨-, -, heq'⟩ := htrans w f hw hfw
    have hsub := heq.symm.trans heq'
    bv_omega
  · obtain ⟨hle, hlt, -⟩ := htrans v f hv hf
    rw [BitVec.lt_def, BitVec.toNat_sub_of_le hle, hoff] at hlt
    omega
  · have hlt := hD f hf
    rw [BitVec.lt_def] at hlt
    rw [(hnat f hf).1]
    omega

end Start

end Microkernel.Vmm
