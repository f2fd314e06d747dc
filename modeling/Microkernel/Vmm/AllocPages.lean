import Microkernel.Vmm.FlatMap

/-! # Runs of fresh pages

`vmm_alloc_pages` and `vmm_free_pages`. The addresses come from a watermark that only grows, the frames
from the physical allocator, and a request that fails half way is rolled back. The areas that the two
functions register in `vma.c`, and whose answers they do not use, are added in `Kernel/VmaRegistry`.

* **`LawfulPmm`** — what is asked of the physical allocator here.
* **`AllocArea`** — the invariant of the addresses from a base on: every page that is mapped has a frame
  of its own, and nothing is mapped from the watermark on.
* **`vmmAllocPages_area`, `vmmFreePages_area`** — both functions keep it, the rollback included.
-/

namespace Microkernel.Vmm

/-- **A physical allocator**: the operations of `pmm.c` with the frames that are in use. A frame that it
gives was not in use and is from then on, and taking one frame back leaves the others in use. -/
structure LawfulPmm (σ : Type*) extends PmmOps σ where
  /-- `pmm_free_page`. -/
  freePage : U32 → σ → σ
  /-- The frame was given and has not been taken back, or was never to be given. -/
  InUse : σ → U32 → Prop
  lawful : toPmmOps.Lawful InUse
  free_mono : ∀ p f g, InUse p f → InUse p g → f ≠ g → InUse (freePage g p) f

section Functions
variable {σ : Type*} (P : LawfulPmm σ)

/-- The step that `vmm_alloc_pages`, `kmalloc_init` and `slab_get_page` repeat: request a frame and map
the page to it, and give the frame back when that fails. The frame, and whether the page is mapped. -/
def mapFreshPage (virt : U32) (s : VmmState σ) : VmmState σ × U32 × Bool :=
  let (phys, pmm) := P.allocPage s.pmm
  let s := { s with pmm := pmm }
  if phys = 0#32 then (s, phys, false)
  else
    let ret := vmmMapPage P.toPmmOps virt phys (ptePresent ||| pteWritable) s
    if ret.2 ≠ 0 then ({ ret.1 with pmm := P.freePage phys ret.1.pmm }, phys, false)
    else (ret.1, phys, true)

/-- The loop of `vmm_alloc_pages` from page `i` on, with the pages that are left; whether all were
mapped. -/
def mapFreshPages (start : U32) : ℕ → U32 → VmmState σ → VmmState σ × Bool
  | 0, _, s => (s, true)
  | n + 1, i, s =>
      let ret := mapFreshPage P (start + i * vmmPageSize) s
      if ret.2.2 then mapFreshPages start n (i + 1#32) ret.1 else (ret.1, false)

/-- One round of the rollback: a page that is mapped gives its frame back and is unmapped. -/
def rollbackPage (virt : U32) (s : VmmState σ) : VmmState σ :=
  match vmmGetPhysical virt s with
  | some phys => vmmUnmapPage virt { s with pmm := P.freePage phys s.pmm }
  | none => s

/-- The rollback of `vmm_alloc_pages` from page `j` on, with the pages that are left. -/
def rollbackPages (start : U32) : ℕ → U32 → VmmState σ → VmmState σ
  | 0, _, s => s
  | n + 1, j, s => rollbackPages start n (j + 1#32) (rollbackPage P (start + j * vmmPageSize) s)

/-- `vmm_alloc_pages(count)`: the first address, or `NULL`. -/
def vmmAllocPages (count : U32) (s : VmmState σ) : VmmState σ × U32 :=
  if count = 0#32 ∨ ¬ s.ready ∨ s.nextVaddr = 0#32 then (s, 0#32)
  else
    let start := s.nextVaddr
    let totalBytes := count * vmmPageSize
    if totalBytes > 0xFFFFFFFF#32 - start then (s, 0#32)
    else
      let s := { s with nextVaddr := start + totalBytes }
      let ret := mapFreshPages P start count.toNat 0#32 s
      if ret.2 then (ret.1, start) else (rollbackPages P start count.toNat 0#32 ret.1, 0#32)

/-- One round of `vmm_free_pages`. -/
def freeMappedPage (virt : U32) (s : VmmState σ) : VmmState σ :=
  vmmUnmapPage virt
    (match vmmGetPhysical virt s with
    | some phys => { s with pmm := P.freePage phys s.pmm }
    | none => s)

/-- The loop of `vmm_free_pages` from page `i` on, with the pages that are left. -/
def freeMappedPages (base : U32) : ℕ → U32 → VmmState σ → VmmState σ
  | 0, _, s => s
  | n + 1, i, s => freeMappedPages base n (i + 1#32) (freeMappedPage P (base + i * vmmPageSize) s)

/-- `vmm_free_pages(vaddr, count)`. -/
def vmmFreePages (vaddr count : U32) (s : VmmState σ) : VmmState σ :=
  if vaddr = 0#32 ∨ count = 0#32 ∨ ¬ s.ready then s
  else freeMappedPages P vaddr count.toNat 0#32 s

end Functions

section FreshPage
variable {σ : Type*} {P : LawfulPmm σ} {s s' : VmmState σ} {v f : U32}

/-- Other frames than the one taken back stay in use. -/
theorem VmmState.WellFormed.free (h : s.WellFormed P.InUse) {g : U32} (hg : P.InUse s.pmm g)
    (hne : ∀ i, entryTarget (s.pd i) ≠ some g) :
    ({ s with pmm := P.freePage g s.pmm } : VmmState σ).WellFormed P.InUse := by
  refine ⟨fun i f hf => ?_, h.injective⟩
  apply P.free_mono s.pmm f g (h.inUse i f hf) hg
  rintro rfl
  exact hne i hf

/-- The state after a request for a frame. -/
theorem VmmState.WellFormed.request (h : s.WellFormed P.InUse) :
    let t : VmmState σ := { s with pmm := (P.allocPage s.pmm).2 }
    t.WellFormed P.InUse ∧ s.Extends t P.InUse := by
  have hmono := P.lawful.mono s.pmm
  exact ⟨⟨fun i f hf => hmono f (h.inUse i f hf), h.injective⟩,
    ⟨rfl, rfl, rfl, hmono, fun _ _ h => h, fun _ _ h => h, fun _ _ h => .inl h⟩⟩

/-- **One fresh page**: the entries stay as they are, or one page is mapped to a frame that was not in
use and holds no page table. -/
theorem mapFreshPage_spec (h : s.WellFormed P.InUse) (virt : U32) :
    ∃ s' phys ok, mapFreshPage P virt s = (s', phys, ok) ∧ s'.WellFormed P.InUse ∧
      s.Extends s' P.InUse ∧
      (ok = false ∧ (∀ v, s'.entry v = s.entry v) ∨
        ok = true ∧ phys ≠ 0#32 ∧ phys.PageAligned ∧ virt.PageAligned ∧ ¬ P.InUse s.pmm phys ∧
          P.InUse s'.pmm phys ∧ (∀ i, entryTarget (s'.pd i) ≠ some phys) ∧
          ∀ v, v.PageAligned → s'.translate v = if v = virt then some phys else s.translate v) := by
  obtain ⟨hwf₁, hext₁⟩ := h.request
  have hfresh := P.lawful.fresh s.pmm
  cases halloc : P.allocPage s.pmm with
  | mk phys pmm =>
    rw [halloc] at hwf₁ hext₁ hfresh
    by_cases hphys : phys = 0#32
    · refine ⟨_, phys, false, ?_, hwf₁, hext₁, .inl ⟨rfl, fun _ => rfl⟩⟩
      simp only [mapFreshPage, halloc, if_pos hphys]
    obtain ⟨halign, hnot, huse⟩ := hfresh hphys
    obtain ⟨s₁, hs₁⟩ : ∃ s₁ : VmmState σ, s₁ = { s with pmm := pmm } := ⟨_, rfl⟩
    have hentry₁ : ∀ v, s₁.entry v = s.entry v := by
      intro v
      rw [hs₁]
      rfl
    rw [← hs₁] at hwf₁ hext₁
    obtain ⟨s₂, r, hres, hwf₂, hext₂, hcase⟩ := vmmMapPage_entry P.lawful hwf₁ virt phys
      (ptePresent ||| pteWritable)
    have huse₂ : P.InUse s₂.pmm phys := by
      apply hext₂.inUse
      rw [hs₁]
      exact huse
    -- the page tables are in other frames
    have hother : ∀ i, entryTarget (s₂.pd i) ≠ some phys := by
      intro i hi
      rcases hext₂.fresh i phys hi with hi | hi
      · rw [hs₁] at hi
        exact hnot (h.inUse i phys hi)
      · rw [hs₁] at hi
        exact hi huse
    have hext := hext₁.trans hext₂
    rcases hcase with ⟨rfl, hentry⟩ | ⟨rfl, hvirt, -, -, hentry⟩
    · refine ⟨{ s₂ with pmm := P.freePage phys s₂.pmm }, phys, false, ?_, hwf₂.free huse₂ hother,
        ⟨hext.ready, hext.nextVaddr, hext.directMapEnd, ?_, hext.target, hext.user, hext.fresh⟩,
        .inl ⟨rfl, fun v => (hentry v).trans (hentry₁ v)⟩⟩
      · simp only [mapFreshPage, halloc, if_neg hphys, ← hs₁, hres]
        rfl
      · intro f hf
        apply P.free_mono s₂.pmm f phys (hext.inUse f hf) huse₂
        rintro rfl
        exact hnot hf
    · refine ⟨s₂, phys, true, ?_, hwf₂, hext,
        .inr ⟨rfl, hphys, halign, hvirt, hnot, huse₂, hother, fun v hv => ?_⟩⟩
      · simp only [mapFreshPage, halloc, if_neg hphys, ← hs₁, hres]
        rfl
      · have hpresent : IsPresent (ptePresent ||| pteWritable) := by decide
        rw [VmmState.translate_eq, hentry v hv]
        split
        · rw [← entryTarget_eq]
          exact (entryTarget_map halign _).trans (if_pos hpresent)
        · rw [hentry₁, ← VmmState.translate_eq]

end FreshPage

/-! ### The allocation area -/

/-- **The invariant of the allocation area**, the addresses from `base` on outside a window `W` that
somebody else maps: nothing is mapped from `top` on, and every page is mapped to a frame in use of its
own that holds no page table. -/
structure VmmState.AllocArea {σ : Type*} (s : VmmState σ) (P : LawfulPmm σ) (W : U32 → Prop)
    (base top : ℕ) : Prop where
  wellFormed : s.WellFormed P.InUse
  frontier : ∀ v, v.PageAligned → s.translate v ≠ none → v.toNat < top ∨ W v
  owned : ∀ v f, v.PageAligned → base ≤ v.toNat → ¬ W v → s.translate v = some f →
    P.InUse s.pmm f ∧ ∀ i, entryTarget (s.pd i) ≠ some f
  injective : ∀ v w f, v.PageAligned → w.PageAligned → base ≤ v.toNat → base ≤ w.toNat →
    ¬ W v → ¬ W w → s.translate v = some f → s.translate w = some f → v = w

section AllocArea
variable {σ : Type*} {P : LawfulPmm σ} {W : U32 → Prop} {s s' : VmmState σ} {base top top' : ℕ}
  {v : U32}

/-- **Mapping a fresh page** keeps the invariant, and what is mapped stays mapped. -/
theorem VmmState.AllocArea.mapFresh (h : s.AllocArea P W base top) (htop : top ≤ top')
    (hv : v.toNat < top' ∨ W v) :
    ∃ s' phys ok, mapFreshPage P v s = (s', phys, ok) ∧ s.Extends s' P.InUse ∧
      s'.AllocArea P W base top' ∧ (ok → s'.translate v ≠ none) ∧
      ∀ w, w.PageAligned → s.translate w ≠ none → s'.translate w ≠ none := by
  obtain ⟨s', phys, ok, hres, hwf, hext, hcase⟩ := mapFreshPage_spec h.wellFormed v
  refine ⟨s', phys, ok, hres, hext, ?_⟩
  -- a frame in use that holds no table keeps both properties
  have hkeep : ∀ f, P.InUse s.pmm f → (∀ i, entryTarget (s.pd i) ≠ some f) →
      P.InUse s'.pmm f ∧ ∀ i, entryTarget (s'.pd i) ≠ some f := by
    intro f hf hne
    refine ⟨hext.inUse f hf, fun i hi => ?_⟩
    rcases hext.fresh i f hi with hi | hi
    · exact hne i hi
    · exact hi hf
  rcases hcase with ⟨rfl, hentry⟩ | ⟨rfl, -, -, hvirt, hnot, huse, hother, htrans⟩
  · have htrans : ∀ w, s'.translate w = s.translate w := by
      intro w
      rw [VmmState.translate_eq, hentry, ← VmmState.translate_eq]
    refine ⟨⟨hwf, ?_, ?_, ?_⟩, fun hf => absurd hf (by decide), fun w _ hw => ?_⟩
    · intro w hw hmapped
      rw [htrans] at hmapped
      exact (h.frontier w hw hmapped).imp_left fun hlt => hlt.trans_le htop
    · intro w f hw hb hW hf
      rw [htrans] at hf
      obtain ⟨huse, hne⟩ := h.owned w f hw hb hW hf
      exact hkeep f huse hne
    · intro w x f hw hx hbw hbx hWw hWx hfw hfx
      rw [htrans] at hfw hfx
      exact h.injective w x f hw hx hbw hbx hWw hWx hfw hfx
    · rw [htrans]
      exact hw
  · refine ⟨⟨hwf, ?_, ?_, ?_⟩, fun _ => ?_, fun w hw hmapped => ?_⟩
    · intro w hw hmapped
      rw [htrans w hw] at hmapped
      by_cases hwv : w = v
      · rw [hwv]
        exact hv
      · rw [if_neg hwv] at hmapped
        exact (h.frontier w hw hmapped).imp_left fun hlt => hlt.trans_le htop
    · intro w f hw hb hW hf
      rw [htrans w hw] at hf
      by_cases hwv : w = v
      · rw [if_pos hwv] at hf
        obtain rfl := Option.some.inj hf
        exact ⟨huse, hother⟩
      · rw [if_neg hwv] at hf
        obtain ⟨huse, hne⟩ := h.owned w f hw hb hW hf
        exact hkeep f huse hne
    · intro w x f hw hx hbw hbx hWw hWx hfw hfx
      rw [htrans w hw] at hfw
      rw [htrans x hx] at hfx
      by_cases hwv : w = v <;> by_cases hxv : x = v
      · rw [hwv, hxv]
      · -- the frame of another page was in use
        rw [if_pos hwv] at hfw
        rw [if_neg hxv] at hfx
        obtain rfl := Option.some.inj hfw
        exact absurd (h.owned x phys hx hbx hWx hfx).1 hnot
      · rw [if_neg hwv] at hfw
        rw [if_pos hxv] at hfx
        obtain rfl := Option.some.inj hfx
        exact absurd (h.owned w phys hw hbw hWw hfw).1 hnot
      · rw [if_neg hwv] at hfw
        rw [if_neg hxv] at hfx
        exact h.injective w x f hw hx hbw hbx hWw hWx hfw hfx
    · rw [htrans v hvirt, if_pos rfl]
      simp
    · rw [htrans w hw]
      split
      · simp
      · exact hmapped

/-- Unmapping a page keeps the invariant. -/
theorem VmmState.AllocArea.unmap (h : s.AllocArea P W base top) (v : U32) :
    (vmmUnmapPage v s).AllocArea P W base top := by
  obtain ⟨hwf, hext, hpmm, -⟩ := vmmUnmapPage_entry h.wellFormed v
  obtain ⟨-, -, htrans⟩ := vmmUnmapPage_spec h.wellFormed v
  -- what is still mapped was mapped before
  have hsub : ∀ w f, w.PageAligned → (vmmUnmapPage v s).translate w = some f →
      s.translate w = some f := by
    intro w f hw hf
    rw [htrans w hw] at hf
    split at hf
    · exact absurd hf (by simp)
    · exact hf
  refine ⟨hwf, ?_, ?_, ?_⟩
  · intro w hw hmapped
    obtain ⟨f, hf⟩ := Option.ne_none_iff_exists'.mp hmapped
    apply h.frontier w hw
    rw [hsub w f hw hf]
    simp
  · intro w f hw hb hW hf
    obtain ⟨huse, hne⟩ := h.owned w f hw hb hW (hsub w f hw hf)
    refine ⟨hpmm ▸ huse, fun i hi => ?_⟩
    rcases hext.fresh i f hi with hi | hi
    · exact hne i hi
    · exact hi huse
  · intro w x f hw hx hbw hbx hWw hWx hfw hfx
    exact h.injective w x f hw hx hbw hbx hWw hWx (hsub w f hw hfw) (hsub x f hx hfx)

/-- **Releasing a page** of the area, frame first, keeps the invariant. -/
theorem VmmState.AllocArea.release (h : s.AllocArea P W base top) (hv : v.PageAligned)
    (hb : base ≤ v.toNat) (hW : ¬ W v) {f : U32} (hf : s.translate v = some f) :
    (vmmUnmapPage v { s with pmm := P.freePage f s.pmm }).AllocArea P W base top := by
  obtain ⟨huse, hne⟩ := h.owned v f hv hb hW hf
  obtain ⟨s₁, hs₁⟩ : ∃ s₁ : VmmState σ, s₁ = { s with pmm := P.freePage f s.pmm } := ⟨_, rfl⟩
  have hwf₁ : s₁.WellFormed P.InUse := hs₁ ▸ h.wellFormed.free huse hne
  have hpd₁ : s₁.pd = s.pd := by rw [hs₁]
  have htrans₁ : ∀ w, s₁.translate w = s.translate w := by
    intro w
    rw [hs₁]
    rfl
  rw [← hs₁]
  obtain ⟨hwf, hext, hpmm, -⟩ := vmmUnmapPage_entry hwf₁ v
  obtain ⟨-, -, htrans⟩ := vmmUnmapPage_spec hwf₁ v
  -- what is still mapped is another page, and was mapped before
  have hsub : ∀ w g, w.PageAligned → (vmmUnmapPage v s₁).translate w = some g →
      w ≠ v ∧ s.translate w = some g := by
    intro w g hw hg
    rw [htrans w hw, htrans₁] at hg
    split at hg
    · exact absurd hg (by simp)
    · exact ⟨‹_›, hg⟩
  refine ⟨hwf, ?_, ?_, ?_⟩
  · intro w hw hmapped
    obtain ⟨g, hg⟩ := Option.ne_none_iff_exists'.mp hmapped
    apply h.frontier w hw
    rw [(hsub w g hw hg).2]
    simp
  · intro w g hw hbw hWw hg
    obtain ⟨hwv, hg'⟩ := hsub w g hw hg
    obtain ⟨huse', hne'⟩ := h.owned w g hw hbw hWw hg'
    have hgf : g ≠ f := by
      rintro rfl
      exact hwv (h.injective w v g hw hv hbw hb hWw hW hg' hf)
    have hg₁ : P.InUse s₁.pmm g := by
      rw [hs₁]
      exact P.free_mono s.pmm g f huse' huse hgf
    refine ⟨hpmm ▸ hg₁, fun i hi => ?_⟩
    rcases hext.fresh i g hi with hi | hi
    · rw [hpd₁] at hi
      exact hne' i hi
    · exact hi hg₁
  · intro w x g hw hx hbw hbx hWw hWx hgw hgx
    exact h.injective w x g hw hx hbw hbx hWw hWx (hsub w g hw hgw).2 (hsub x g hx hgx).2

/-- Taking a frame back and unmapping its page leaves the static data alone. -/
theorem vmmUnmapPage_static (s : VmmState σ) (v : U32) (pmm : σ) :
    (vmmUnmapPage v { s with pmm := pmm }).nextVaddr = s.nextVaddr ∧
      (vmmUnmapPage v { s with pmm := pmm }).ready = s.ready := by
  unfold vmmUnmapPage
  split
  · exact ⟨rfl, rfl⟩
  · dsimp only
    split
    · exact ⟨rfl, rfl⟩
    · exact ⟨rfl, rfl⟩

/-- One round of the rollback. -/
theorem VmmState.AllocArea.rollbackPage (h : s.AllocArea P W base top) (hb : base ≤ v.toNat)
    (hW : ¬ W v) :
    (rollbackPage P v s).AllocArea P W base top ∧ (rollbackPage P v s).nextVaddr = s.nextVaddr ∧
      (rollbackPage P v s).ready = s.ready := by
  unfold Vmm.rollbackPage
  rw [vmmGetPhysical_eq]
  by_cases hget : s.ready ∧ v.PageAligned
  · rw [if_pos hget]
    cases hf : s.translate v with
    | none => exact ⟨h, rfl, rfl⟩
    | some f => exact ⟨h.release hget.2 hb hW hf, vmmUnmapPage_static s v _⟩
  · rw [if_neg hget]
    exact ⟨h, rfl, rfl⟩

/-- One round of `vmm_free_pages`. -/
theorem VmmState.AllocArea.freeMappedPage (h : s.AllocArea P W base top) (hb : base ≤ v.toNat)
    (hW : ¬ W v) :
    (freeMappedPage P v s).AllocArea P W base top ∧
      (freeMappedPage P v s).nextVaddr = s.nextVaddr ∧ (freeMappedPage P v s).ready = s.ready := by
  have hunmap := vmmUnmapPage_static s v s.pmm
  unfold Vmm.freeMappedPage
  rw [vmmGetPhysical_eq]
  by_cases hget : s.ready ∧ v.PageAligned
  · rw [if_pos hget]
    cases hf : s.translate v with
    | none => exact ⟨h.unmap v, hunmap⟩
    | some f => exact ⟨h.release hget.2 hb hW hf, vmmUnmapPage_static s v _⟩
  · rw [if_neg hget]
    exact ⟨h.unmap v, hunmap⟩

/-! ### The loops -/

/-- The addresses that the loops go through, counted from the next one. -/
theorem page_succ (start i : U32) (k : ℕ) :
    start + (i + 1#32 + BitVec.ofNat 32 k) * vmmPageSize =
      start + (i + BitVec.ofNat 32 (k + 1)) * vmmPageSize := by
  congr 2
  rw [BitVec.ofNat_add, BitVec.add_assoc, BitVec.add_comm 1#32]

/-- The first of the pages still to come. -/
theorem page_zero (start i : U32) :
    start + (i + BitVec.ofNat 32 0) * vmmPageSize = start + i * vmmPageSize := by
  rw [show BitVec.ofNat 32 0 = 0#32 from rfl, BitVec.add_zero]

/-- Pages from an aligned address on are aligned. -/
theorem page_aligned {start : U32} (h : start.PageAligned) (i : U32) :
    (start + i * vmmPageSize).PageAligned := by
  rw [U32.pageAligned_iff] at h ⊢
  rw [BitVec.toNat_add, BitVec.toNat_mul, show vmmPageSize.toNat = 4096 from rfl]
  omega

/-- The loop of `vmm_alloc_pages` keeps the invariant; when it succeeds its pages are mapped. -/
theorem mapFreshPages_area {start : U32} (hstart : start.PageAligned) (n : ℕ) {i : U32}
    (h : s.AllocArea P W base top)
    (hpages : ∀ k < n, (start + (i + BitVec.ofNat 32 k) * vmmPageSize).toNat < top ∨
      W (start + (i + BitVec.ofNat 32 k) * vmmPageSize)) :
    ∃ s' ok, mapFreshPages P start n i s = (s', ok) ∧ s.Extends s' P.InUse ∧
      s'.AllocArea P W base top ∧
      (ok → ∀ k < n, s'.translate (start + (i + BitVec.ofNat 32 k) * vmmPageSize) ≠ none) ∧
      ∀ w, w.PageAligned → s.translate w ≠ none → s'.translate w ≠ none := by
  induction n generalizing i s with
  | zero => exact ⟨s, true, rfl, .refl s, h, fun _ k hk => absurd hk (Nat.not_lt_zero k),
      fun _ _ hw => hw⟩
  | succ n ih =>
    have hfirst := hpages 0 (Nat.succ_pos n)
    rw [page_zero] at hfirst
    obtain ⟨s₁, phys, ok, hres, hext₁, h₁, hmapped₁, hkeep₁⟩ := h.mapFresh le_rfl hfirst
    unfold mapFreshPages
    simp only [hres]
    cases ok with
    | false => exact ⟨s₁, false, rfl, hext₁, h₁, fun hf => absurd hf (by decide), hkeep₁⟩
    | true =>
      obtain ⟨s', ok, hloop, hext, h', hmapped, hkeep⟩ := ih (i := i + 1#32) h₁ fun k hk => by
        rw [page_succ]
        exact hpages (k + 1) (Nat.succ_lt_succ hk)
      refine ⟨s', ok, by rw [if_pos rfl, hloop], hext₁.trans hext, h', fun hok k hk => ?_,
        fun w hw hm => hkeep w hw (hkeep₁ w hw hm)⟩
      cases k with
      | zero =>
        rw [page_zero]
        exact hkeep _ (page_aligned hstart i) (hmapped₁ rfl)
      | succ k =>
        rw [← page_succ]
        exact hmapped hok k (Nat.lt_of_succ_lt_succ hk)

/-- The rollback keeps the invariant. -/
theorem rollbackPages_area {start : U32} (n : ℕ) {j : U32} (h : s.AllocArea P W base top)
    (hpages : ∀ k < n, base ≤ (start + (j + BitVec.ofNat 32 k) * vmmPageSize).toNat ∧
      ¬ W (start + (j + BitVec.ofNat 32 k) * vmmPageSize)) :
    (rollbackPages P start n j s).AllocArea P W base top ∧
      (rollbackPages P start n j s).nextVaddr = s.nextVaddr := by
  induction n generalizing j s with
  | zero => exact ⟨h, rfl⟩
  | succ n ih =>
    obtain ⟨hb, hW⟩ := hpages 0 (Nat.succ_pos n)
    rw [page_zero] at hb hW
    obtain ⟨h₁, hnext, -⟩ := h.rollbackPage hb hW
    unfold rollbackPages
    rw [← hnext]
    exact ih h₁ fun k hk => by
      rw [page_succ]
      exact hpages (k + 1) (Nat.succ_lt_succ hk)

/-- The loop of `vmm_free_pages` keeps the invariant. -/
theorem freeMappedPages_area {start : U32} (n : ℕ) {i : U32} (h : s.AllocArea P W base top)
    (hpages : ∀ k < n, base ≤ (start + (i + BitVec.ofNat 32 k) * vmmPageSize).toNat ∧
      ¬ W (start + (i + BitVec.ofNat 32 k) * vmmPageSize)) :
    (freeMappedPages P start n i s).AllocArea P W base top ∧
      (freeMappedPages P start n i s).nextVaddr = s.nextVaddr := by
  induction n generalizing i s with
  | zero => exact ⟨h, rfl⟩
  | succ n ih =>
    obtain ⟨hb, hW⟩ := hpages 0 (Nat.succ_pos n)
    rw [page_zero] at hb hW
    obtain ⟨h₁, hnext, -⟩ := h.freeMappedPage hb hW
    unfold freeMappedPages
    rw [← hnext]
    exact ih h₁ fun k hk => by
      rw [page_succ]
      exact hpages (k + 1) (Nat.succ_lt_succ hk)

/-! ### The two functions -/

/-- The address of a page of a range that does not wrap around. -/
theorem page_toNat {start : U32} {n k : ℕ} (hk : k < n) (hend : start.toNat + n * 4096 ≤ 2 ^ 32) :
    (start + (0#32 + BitVec.ofNat 32 k) * vmmPageSize).toNat = start.toNat + k * 4096 := by
  rw [BitVec.zero_add, BitVec.toNat_add, BitVec.toNat_mul, BitVec.toNat_ofNat,
    show vmmPageSize.toNat = 4096 from rfl]
  omega

/-- A request is turned away before anything is changed. -/
def VmmState.Rejects (s : VmmState σ) (count : U32) : Prop :=
  count = 0#32 ∨ ¬ s.ready ∨ s.nextVaddr = 0#32 ∨
    count * vmmPageSize > 0xFFFFFFFF#32 - s.nextVaddr

/-- The whole pages from an address on, computed without wrap-around. -/
def PagesOf (p count v : U32) : Prop :=
  v.PageAligned ∧ p.toNat ≤ v.toNat ∧ v.toNat < p.toNat + count.toNat * 4096

/-- A request that is turned away changes nothing and gives `NULL`. -/
theorem vmmAllocPages_rejects {count : U32} (h : s.Rejects count) :
    vmmAllocPages P count s = (s, 0#32) := by
  unfold vmmAllocPages
  rcases h with h | h | h | h
  · rw [if_pos (.inl h)]
  · rw [if_pos (.inr (.inl h))]
  · rw [if_pos (.inr (.inr h))]
  · split
    · rfl
    · exact if_pos h

/-- **`vmm_alloc_pages`** of a range that does not wrap around and misses the window keeps the invariant;
when it succeeds it maps whole pages that were not mapped. -/
theorem vmmAllocPages_area (h : s.AllocArea P W base s.nextVaddr.toNat)
    (hbase : base ≤ s.nextVaddr.toNat) (hnext : s.nextVaddr.PageAligned) {count : U32}
    (hrej : ¬ s.Rejects count) (hend : s.nextVaddr.toNat + count.toNat * 4096 < 2 ^ 32)
    (hW : ∀ v, PagesOf s.nextVaddr count v → ¬ W v) :
    ∃ s' p, vmmAllocPages P count s = (s', p) ∧ s'.AllocArea P W base s'.nextVaddr.toNat ∧
      base ≤ s'.nextVaddr.toNat ∧ s'.nextVaddr.PageAligned ∧
      (p ≠ 0#32 → p = s.nextVaddr ∧ s'.ready ∧
        ∀ v, PagesOf p count v → s.translate v = none ∧ s'.translate v ≠ none) := by
  unfold VmmState.Rejects at hrej
  simp only [not_or, not_not] at hrej
  obtain ⟨hcount, hready, hne, htotal⟩ := hrej
  obtain ⟨start, hstart⟩ : ∃ start, start = s.nextVaddr := ⟨_, rfl⟩
  rw [← hstart] at h hbase hnext hne htotal hend hW
  have hbytes : (start + count * vmmPageSize).toNat = start.toNat + count.toNat * 4096 := by
    rw [BitVec.toNat_add, BitVec.toNat_mul, show vmmPageSize.toNat = 4096 from rfl]
    omega
  have hlow := (U32.pageAligned_iff _).mp hnext
  obtain ⟨s₀, hs₀⟩ : ∃ s₀ : VmmState σ,
      s₀ = { s with nextVaddr := start + count * vmmPageSize } := ⟨_, rfl⟩
  have hnext₀ : s₀.nextVaddr = start + count * vmmPageSize := by rw [hs₀]
  have htrans₀ : ∀ v, s₀.translate v = s.translate v := by
    intro v
    rw [hs₀]
    rfl
  have hpage : ∀ k < count.toNat, (start + (0#32 + BitVec.ofNat 32 k) * vmmPageSize).toNat =
      start.toNat + k * 4096 := fun k hk => page_toNat hk hend.le
  have hinside : ∀ k < count.toNat, start.toNat + k * 4096 < start.toNat + count.toNat * 4096 :=
    fun k hk => Nat.add_lt_add_left (Nat.mul_lt_mul_of_pos_right hk (by decide)) _
  have haligned : ∀ k, (start + (0#32 + BitVec.ofNat 32 k) * vmmPageSize).PageAligned :=
    fun k => page_aligned hnext _
  -- the pages lie below the new watermark and outside the window
  have h₀ : s₀.AllocArea P W base (start + count * vmmPageSize).toNat := by
    subst hs₀
    exact ⟨⟨h.wellFormed.inUse, h.wellFormed.injective⟩,
      fun v hv hm => (h.frontier v hv hm).imp_left fun hlt => by omega, h.owned, h.injective⟩
  obtain ⟨s₁, ok, hloop, hext, h₁, hmapped, -⟩ := mapFreshPages_area hnext count.toNat h₀
    (i := 0#32) fun k hk => by
      left
      rw [hpage k hk, hbytes]
      exact hinside k hk
  have hnext₁ : s₁.nextVaddr = start + count * vmmPageSize := hext.nextVaddr.trans hnext₀
  have haligned' : (start + count * vmmPageSize).PageAligned := page_aligned hnext count
  have hres : vmmAllocPages P count s =
      if ok then (s₁, start) else (rollbackPages P start count.toNat 0#32 s₁, 0#32) := by
    unfold vmmAllocPages
    rw [if_neg (by simp [hcount, hready, ← hstart, hne]), ← hstart]
    dsimp only
    rw [if_neg htotal, ← hs₀, hloop]
  rw [hres]
  cases ok with
  | true =>
    refine ⟨s₁, start, rfl, hnext₁ ▸ h₁, by rw [hnext₁, hbytes]; omega, hnext₁ ▸ haligned',
      fun _ => ⟨hstart, ?_, fun v hv => ?_⟩⟩
    · rw [hext.ready, hs₀]
      exact hready
    obtain ⟨hv, hge, hlt⟩ := hv
    have hv' := (U32.pageAligned_iff v).mp hv
    constructor
    · -- it was mapped neither below the watermark nor in the window
      by_contra hm
      rcases h.frontier v hv hm with hlt' | hWv
      · omega
      · exact hW v ⟨hv, hge, hlt⟩ hWv
    · obtain ⟨k, hk, heq⟩ : ∃ k < count.toNat, v.toNat = start.toNat + k * 4096 :=
        ⟨(v.toNat - start.toNat) / 4096, by omega, by omega⟩
      have hveq : v = start + (0#32 + BitVec.ofNat 32 k) * vmmPageSize := by
        apply BitVec.eq_of_toNat_eq
        rw [hpage k hk, heq]
      rw [hveq]
      exact hmapped rfl k hk
  | false =>
    have hroll : ∀ k < count.toNat,
        base ≤ (start + (0#32 + BitVec.ofNat 32 k) * vmmPageSize).toNat ∧
          ¬ W (start + (0#32 + BitVec.ofNat 32 k) * vmmPageSize) := by
      intro k hk
      have hge : start.toNat ≤ start.toNat + k * 4096 := Nat.le_add_right _ _
      refine ⟨?_, hW _ ⟨haligned k, ?_, ?_⟩⟩
      · rw [hpage k hk]
        exact hbase.trans hge
      · rw [hpage k hk]
        exact hge
      · rw [hpage k hk]
        exact hinside k hk
    obtain ⟨h₂, hnext₂⟩ := rollbackPages_area count.toNat h₁ hroll
    rw [hnext₁] at hnext₂
    exact ⟨_, 0#32, rfl, hnext₂ ▸ h₂, by rw [hnext₂, hbytes]; omega, hnext₂ ▸ haligned',
      fun hf => absurd rfl hf⟩

/-- **`vmm_free_pages`** of a range of the area keeps the invariant. -/
theorem vmmFreePages_area (h : s.AllocArea P W base top) {p count : U32} (hp : p.PageAligned)
    (hbase : base ≤ p.toNat) (hend : p.toNat + count.toNat * 4096 ≤ 2 ^ 32)
    (hW : ∀ v, PagesOf p count v → ¬ W v) :
    (vmmFreePages P p count s).AllocArea P W base top ∧
      (vmmFreePages P p count s).nextVaddr = s.nextVaddr := by
  unfold vmmFreePages
  split
  · exact ⟨h, rfl⟩
  · refine freeMappedPages_area count.toNat h fun k hk => ?_
    have hpage := page_toNat hk hend
    refine ⟨by omega, hW _ ⟨page_aligned hp _, by omega, by omega⟩⟩

end AllocArea

end Microkernel.Vmm
