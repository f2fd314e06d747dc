import Microkernel.Vmm.PagedRuns

/-! # Which frames are requested

The frames that the virtual memory manager takes, in the order of its requests: one for each page table when
the first page below it is mapped, and one for each fresh page.

* **`LawfulPmm.after`** is the allocator after a number of requests.
* **`VmmState.Tracks`** says what was requested, which directory entries have page tables, and that none of
  these is behind the pointer `blank`.
* **`vmmInit_requests`**: `vmm_init` makes one request for each directory entry of the boot map.
* **`PagedMemory.Follows.mapFreshPage`**: a fresh page in the memory, with the requests that it makes. -/

namespace Microkernel.Vmm

open Function (update)
open Paging (pageOf dirIndex tableIndex frameOf)

/-- The allocator after `n` requests. -/
def LawfulPmm.after {σ : Type*} (P : LawfulPmm σ) (q : σ) : ℕ → σ
  | 0 => q
  | n + 1 => (P.allocPage (P.after q n)).2

/-- The requests after some others. -/
theorem LawfulPmm.after_add {σ : Type*} (P : LawfulPmm σ) (q : σ) (a b : ℕ) :
    P.after (P.after q a) b = P.after q (a + b) := by
  induction b with
  | zero => rfl
  | succ b ih =>
    show (P.allocPage (P.after (P.after q a) b)).2 = (P.allocPage (P.after q (a + b))).2
    rw [ih]

/-- The requests after the first one. -/
theorem LawfulPmm.after_alloc {σ : Type*} (P : LawfulPmm σ) (q : σ) (n : ℕ) :
    P.after (P.allocPage q).2 n = P.after q (n + 1) := by
  rw [Nat.add_comm, ← P.after_add q 1 n]
  rfl

/-- **What has been requested**: the state of the allocator, the directory entries with a page table, all
of them in frames of `D`, and a pointer behind which nothing was written. -/
structure VmmState.Tracks {σ : Type*} (s : VmmState σ) (D : U32 → Prop) (blank : U32) (q : σ)
    (I : Finset ℕ) : Prop where
  pmm : s.pmm = q
  present : ∀ i : U32, i.toNat < 1024 → (IsPresent (s.pd i) ↔ i.toNat ∈ I)
  tables : ∀ f, s.IsTable f → D f
  blank : ∀ k, s.table blank k = 0#32

/-- The requests for the page table of the directory entry `i`: none when it has one, or one that is
answered with a frame of `D`. -/
def LawfulPmm.Draws {σ : Type*} (P : LawfulPmm σ) (D : U32 → Prop) (I : Finset ℕ) (i : ℕ) (q r : σ) : Prop :=
  i ∈ I ∧ r = q ∨
    i ∉ I ∧ r = (P.allocPage q).2 ∧ (P.allocPage q).1 ≠ 0#32 ∧ D (P.allocPage q).1

section Tracks
variable {σ : Type*} {P : LawfulPmm σ} {D : U32 → Prop} {blank v f i : U32} {q r p : σ} {I : Finset ℕ}
  {s : VmmState σ}

/-- A directory index is below 1024. -/
theorem pdIndex_lt (v : U32) : (pdIndex v).toNat < 1024 := by
  have hlt := v.isLt
  rw [pdIndex_toNat]
  omega

/-- The page table of a directory entry. -/
theorem VmmState.Tracks.ensurePageTable (h : s.Tracks D blank q I)
    (hD : ∀ f, D f → physToVirt f ≠ 0#32 ∧ physToVirt f ≠ blank) (hi : i.toNat < 1024)
    (hdraws : P.Draws D I i.toNat q r) :
    ∃ s' f, vmmEnsurePageTable P.toPmmOps i s = (s', physToVirt f) ∧ D f ∧
      s'.Tracks D blank r (insert i.toNat I) := by
  rcases hdraws with ⟨hmem, rfl⟩ | ⟨hmem, rfl, hne, hf⟩
  · -- the entry has its table, and nothing is requested
    have hpde := (h.present i hi).mpr hmem
    refine ⟨s, entryFrame (s.pd i), ?_, h.tables _ ⟨i, if_pos hpde⟩, h.pmm, ?_, h.tables, h.blank⟩
    · unfold vmmEnsurePageTable
      exact if_pos hpde
    · rw [Finset.insert_eq_of_mem hmem]
      exact h.present
  -- the entry gets the next frame, which is cleared
  have hpde : ¬ IsPresent (s.pd i) := fun hp => hmem ((h.present i hi).mp hp)
  obtain ⟨halign, -, -⟩ := P.lawful.fresh q hne
  have htarget := entryTarget_table halign
  refine ⟨{ s with
    pmm := (P.allocPage q).2
    table := update s.table (physToVirt (P.allocPage q).1)
      (memzeroPage (s.table (physToVirt (P.allocPage q).1)) 1024)
    pd := update s.pd i ((P.allocPage q).1 ||| ptePresent ||| pteWritable) }, (P.allocPage q).1, ?_, hf,
    rfl, fun j hj => ?_, fun g ⟨j, hj⟩ => ?_, fun k => ?_⟩
  · unfold vmmEnsurePageTable
    simp only [if_neg hpde, h.pmm, if_neg hne]
  · dsimp only
    rw [Function.update_apply, Finset.mem_insert]
    split
    · rename_i hji
      have hpresent : IsPresent ((P.allocPage q).1 ||| ptePresent ||| pteWritable) := by
        by_contra hnone
        rw [entryTarget_eq_none.mpr hnone] at htarget
        exact absurd htarget (by simp)
      exact iff_of_true hpresent (.inl (congrArg BitVec.toNat hji))
    · rename_i hji
      rw [h.present j hj]
      exact (or_iff_right fun heq => hji (BitVec.eq_of_toNat_eq heq)).symm
  · dsimp only at hj
    rw [Function.update_apply] at hj
    split at hj
    · rw [htarget] at hj
      exact Option.some.inj hj ▸ hf
    · exact h.tables g ⟨j, hj⟩
  · dsimp only
    -- the blank page is not the one that is cleared
    rw [Function.update_of_ne (hD _ hf).2.symm]
    exact h.blank k

/-- **Mapping a page** for the kernel requests what its page table needs. -/
theorem VmmState.Tracks.mapPage (h : s.Tracks D blank q I)
    (hD : ∀ f, D f → physToVirt f ≠ 0#32 ∧ physToVirt f ≠ blank) (hv : v.PageAligned) (hf : f.PageAligned)
    (hdraws : P.Draws D I (pdIndex v).toNat q r) :
    ∃ s', vmmMapPage P.toPmmOps v f (ptePresent ||| pteWritable) s = (s', 0) ∧
      s'.Tracks D blank r (insert (pdIndex v).toNat I) := by
  obtain ⟨s₁, g, hens, hg, h₁⟩ := h.ensurePageTable hD (pdIndex_lt v) hdraws
  have hflags : ¬ (ptePresent ||| pteWritable) &&& pteUser ≠ 0#32 := by decide
  refine ⟨{ s₁ with
    table := update s₁.table (physToVirt g) (update (s₁.table (physToVirt g)) (ptIndex v)
      (entryFrame f ||| ((ptePresent ||| pteWritable) &&& 0xFFF#32))) }, ?_, h₁.pmm, h₁.present, h₁.tables,
    fun k => ?_⟩
  · unfold vmmMapPage
    rw [if_neg (by simp [hv, hf])]
    simp only [hens, if_neg (hD g hg).1, if_neg hflags]
  · dsimp only
    rw [Function.update_of_ne (hD g hg).2.symm]
    exact h₁.blank k

/-- **A fresh page** requests its frame first. -/
theorem VmmState.Tracks.mapFreshPage (h : s.Tracks D blank q I)
    (hD : ∀ f, D f → physToVirt f ≠ 0#32 ∧ physToVirt f ≠ blank) (hv : v.PageAligned)
    (halloc : P.allocPage q = (f, p)) (hf : f ≠ 0#32) (hdraws : P.Draws D I (pdIndex v).toNat p r) :
    ∃ s', Vmm.mapFreshPage P v s = (s', f, true) ∧ s'.Tracks D blank r (insert (pdIndex v).toNat I) := by
  have halign : f.PageAligned := by
    have hfresh := P.lawful.fresh q
    rw [halloc] at hfresh
    exact (hfresh hf).1
  have h₁ : VmmState.Tracks { s with pmm := p } D blank p I := ⟨rfl, h.present, h.tables, h.blank⟩
  obtain ⟨s', hmap, h'⟩ := h₁.mapPage hD hv halign hdraws
  refine ⟨s', ?_, h'⟩
  unfold Vmm.mapFreshPage
  simp only [h.pmm, halloc, if_neg hf, hmap, ne_eq, not_true_eq_false, if_false]

/-- Without a frame nothing is mapped. -/
theorem VmmState.Tracks.mapFreshPage_fails (h : s.Tracks D blank q I) (v : U32)
    (halloc : P.allocPage q = (0#32, p)) :
    Vmm.mapFreshPage P v s = ({ s with pmm := p }, 0#32, false) ∧
      VmmState.Tracks { s with pmm := p } D blank p I := by
  refine ⟨?_, rfl, h.present, h.tables, h.blank⟩
  unfold Vmm.mapFreshPage
  simp only [h.pmm, halloc, if_true]

/-- **Unmapping** requests nothing. -/
theorem VmmState.Tracks.unmapPage (h : s.Tracks D blank q I)
    (hD : ∀ f, D f → physToVirt f ≠ 0#32 ∧ physToVirt f ≠ blank) (v : U32) :
    (vmmUnmapPage v s).Tracks D blank q I := by
  unfold vmmUnmapPage
  split
  · exact h
  dsimp only
  split
  · exact h
  · rename_i hpde
    -- the store goes to a page table, so not to the blank page
    refine ⟨h.pmm, h.present, h.tables, fun k => ?_⟩
    dsimp only
    rw [Function.update_of_ne (hD _ (h.tables _ ⟨_, if_pos (not_not.mp hpde)⟩)).2.symm]
    exact h.blank k

/-- And it leaves the directory. -/
theorem vmmUnmapPage_pd (v : U32) (s : VmmState σ) : (vmmUnmapPage v s).pd = s.pd := by
  unfold vmmUnmapPage
  split
  · rfl
  dsimp only
  split <;> rfl

/-- **Unmapping the lower part** leaves the directory entries of the upper one. -/
theorem VmmState.Tracks.unmapIdentity (h : s.Tracks D blank q I) (hready : s.ready) :
    (vmmUnmapIdentity s).Tracks D blank q (I.filter (768 ≤ ·)) := by
  obtain ⟨htable, -, -, -, hpmm⟩ := vmmUnmapIdentity_rest s
  refine ⟨hpmm.trans h.pmm, fun i hi => ?_, fun f ⟨i, hf⟩ => ?_, fun k => htable ▸ h.blank k⟩
  · obtain ⟨hlow, hhigh⟩ := vmmUnmapIdentity_pd hready i
    rw [Finset.mem_filter]
    rcases Nat.lt_or_ge i.toNat 768 with hlt | hge
    · exact iff_of_false (hlow hlt) fun hmem => absurd hmem.2 (Nat.not_le.mpr hlt)
    · rw [hhigh hge, h.present i hi]
      exact (and_iff_left hge).symm
  · rw [vmmUnmapIdentity_target hf] at hf
    exact h.tables f ⟨i, hf⟩

/-! ### `vmm_init` -/

/-- The directory entries of the boot map: those of the pages below `mapEnd`, and of the same pages in the
upper part. -/
def bootEntries (mapEnd : U32) : Finset ℕ :=
  (Finset.range 1024).filter fun i =>
    i * 2 ^ 22 < mapEnd.toNat ∨ 768 ≤ i ∧ (i - 768) * 2 ^ 22 < mapEnd.toNat

/-- The entry of a page of the boot map. -/
theorem pdIndex_mem_bootEntries {mapEnd addr virt : U32} (hmax : mapEnd.toNat ≤ 2 ^ 30) (hlt : addr < mapEnd)
    (hvirt : virt = addr ∨ virt = addr + kernelVirtOffset) : (pdIndex virt).toNat ∈ bootEntries mapEnd := by
  rw [BitVec.lt_def] at hlt
  unfold bootEntries
  rw [Finset.mem_filter, Finset.mem_range]
  refine ⟨pdIndex_lt virt, ?_⟩
  rw [pdIndex_toNat]
  rcases hvirt with rfl | rfl
  · left
    omega
  · right
    have hsum : (addr + kernelVirtOffset).toNat = addr.toNat + 0xC0000000 := by
      unfold kernelVirtOffset
      bv_omega
    rw [hsum]
    omega

variable {mapEnd : U32}

/-- The first requests are answered with frames of `D`. -/
def LawfulPmm.Answers (P : LawfulPmm σ) (D : U32 → Prop) (q : σ) (k : ℕ) : Prop :=
  ∀ n < k, (P.allocPage (P.after q n)).1 ≠ 0#32 ∧ D (P.allocPage (P.after q n)).1

/-- One entry of a set is requested after some others. -/
theorem LawfulPmm.Answers.draws {E : Finset ℕ} (h : P.Answers D q E.card) (hI : I ⊆ E) {n : ℕ} (hn : n ∈ E) :
    P.Draws D I n (P.after q I.card) (P.after q (insert n I).card) := by
  by_cases hmem : n ∈ I
  · exact .inl ⟨hmem, by rw [Finset.insert_eq_of_mem hmem]⟩
  · have hcard := Finset.card_insert_of_notMem hmem
    have hlt := Finset.card_le_card (Finset.insert_subset hn hI)
    rw [hcard] at hlt
    have hanswer := h I.card hlt
    exact .inr ⟨hmem, by rw [hcard]; rfl, hanswer.1, hanswer.2⟩

/-- **The mapping loop** makes one request for each entry that it needs, and maps all pages. -/
theorem vmmInitLoop_requests (hD : ∀ f, D f → physToVirt f ≠ 0#32 ∧ physToVirt f ≠ blank)
    (hmax : mapEnd.toNat ≤ 2 ^ 30) (hanswers : P.Answers D q (bootEntries mapEnd).card) (n : ℕ) {addr : U32}
    {ok : Bool} {s' : VmmState σ} (haddr : addr.PageAligned) (hI : I ⊆ bootEntries mapEnd)
    (h : s.Tracks D blank (P.after q I.card) I)
    (hres : vmmInitLoop P.toPmmOps mapEnd n addr s = some (s', ok)) :
    ok = true ∧ ∃ I ⊆ bootEntries mapEnd, s'.Tracks D blank (P.after q I.card) I := by
  induction n generalizing addr s I with
  | zero => exact absurd hres (by simp [vmmInitLoop])
  | succ n ih =>
    unfold vmmInitLoop at hres
    split at hres
    · rename_i hlt
      have hlow := pdIndex_mem_bootEntries hmax hlt (.inl rfl)
      have hhigh := pdIndex_mem_bootEntries hmax hlt (.inr rfl)
      have hvirt : (addr + kernelVirtOffset).PageAligned := by
        rw [U32.pageAligned_iff] at haddr ⊢
        unfold kernelVirtOffset
        bv_omega
      have hI₁ := Finset.insert_subset hlow hI
      -- both mappings of the round
      obtain ⟨s₁, hmap₁, h₁⟩ := h.mapPage hD haddr haddr (hanswers.draws hI hlow)
      obtain ⟨s₂, hmap₂, h₂⟩ := h₁.mapPage hD hvirt haddr (hanswers.draws hI₁ hhigh)
      simp only [hmap₁, hmap₂, ne_eq, not_true_eq_false, if_false] at hres
      refine ih ?_ (Finset.insert_subset hhigh hI₁) h₂ hres
      rw [U32.pageAligned_iff] at haddr ⊢
      unfold vmmPageSize
      bv_omega
    · obtain ⟨rfl, rfl⟩ := Prod.mk.inj (Option.some.inj hres)
      exact ⟨rfl, I, hI, h⟩

/-- An entry below which a page is mapped has a page table. -/
theorem VmmState.isPresent_of_translate (hv : s.translate v ≠ none) : IsPresent (s.pd (pdIndex v)) := by
  by_contra hnone
  exact hv (TwoLevelMap.lookup_of_none (VmmState.dir_of_not_present hnone) _)

/-- **`vmm_init`** succeeds when it gets a frame for each directory entry of the boot map, and these are all
that it requests. -/
theorem vmmInit_requests (hD : ∀ f, D f → physToVirt f ≠ 0#32 ∧ physToVirt f ≠ blank) {kernelEnd : U32}
    {table : U32 → U32 → U32} (hblank : ∀ k, table blank k = 0#32)
    (hanswers : P.Answers D q (bootEntries (vmmMapEnd P.toPmmOps kernelEnd q)).card)
    (hinit : vmmInit P.toPmmOps kernelEnd (vmmStatic table q) = some s) :
    s.ready ∧ s.Tracks D blank (P.after q (bootEntries (vmmMapEnd P.toPmmOps kernelEnd q)).card)
      (bootEntries (vmmMapEnd P.toPmmOps kernelEnd q)) := by
  obtain ⟨hend, hmax⟩ := vmmMapEnd_spec P.toPmmOps kernelEnd q
  obtain ⟨s₁, ok, hloop, hcase⟩ := vmmInit_cases hinit
  have hstart : (vmmCleared table q).Tracks D blank (P.after q (∅ : Finset ℕ).card) ∅ := by
    have hnone : ∀ i, ¬ IsPresent ((vmmCleared table q).pd i) := by
      intro i
      rw [vmmCleared_pd]
      decide
    exact ⟨rfl, fun i _ => iff_of_false (hnone i) (Finset.notMem_empty _),
      fun f ⟨i, hi⟩ => absurd hi (by rw [entryTarget_eq_none.mpr (hnone i)]; simp), hblank⟩
  obtain ⟨rfl, I, hI, h₁⟩ := vmmInitLoop_requests hD hmax hanswers (2 ^ 20) (by decide)
    (Finset.empty_subset _) hstart hloop
  rcases hcase with ⟨hfalse, -⟩ | ⟨-, hs⟩
  · exact absurd hfalse (by simp)
  have hready : s.ready = true := by rw [hs]
  have h : s.Tracks D blank (P.after q I.card) I := by
    rw [hs]
    exact ⟨h₁.pmm, h₁.present, h₁.tables, h₁.blank⟩
  -- every entry of the boot map has been needed
  have heq : I = bootEntries (vmmMapEnd P.toPmmOps kernelEnd q) := by
    refine Finset.Subset.antisymm hI fun i hi => ?_
    obtain ⟨hlt, hcase⟩ := Finset.mem_filter.mp hi
    rw [Finset.mem_range] at hlt
    obtain ⟨s', hinit', -, -, hboot, -⟩ := vmmInit_boot P.lawful kernelEnd table q
    obtain rfl := Option.some.inj (hinit.symm.trans hinit')
    obtain ⟨v, hv⟩ : ∃ v : U32, v = BitVec.ofNat 32 (i * 2 ^ 22) := ⟨_, rfl⟩
    have hnat : v.toNat = i * 2 ^ 22 := by
      rw [hv, BitVec.toNat_ofNat]
      omega
    have halign : v.PageAligned := by
      rw [U32.pageAligned_iff]
      omega
    have hmapped : s.translate v ≠ none := by
      rw [(hboot hready).1 v halign]
      unfold FlatMap.boot
      rcases hcase with hlow | ⟨hge, hhigh⟩
      · rw [if_pos (by rw [BitVec.lt_def]; omega)]
        simp
      · split
        · simp
        · have hle : kernelVirtOffset ≤ v := by
            rw [BitVec.le_def, show kernelVirtOffset.toNat = 0xC0000000 from rfl]
            omega
          rw [if_pos ⟨hle, by
            rw [BitVec.lt_def, BitVec.toNat_sub_of_le hle, show kernelVirtOffset.toNat = 0xC0000000 from rfl]
            omega⟩]
          simp
    have hmem := (h.present _ (pdIndex_lt v)).mp (VmmState.isPresent_of_translate hmapped)
    rw [pdIndex_toNat, hnat, Nat.mul_div_cancel _ (by decide)] at hmem
    exact hmem
  rw [heq] at h
  exact ⟨hready, h⟩

end Tracks

/-! ### In the memory -/

/-- **The memory with what was requested**: it implements the tables, which the direct map has. -/
structure PagedMemory.Follows {σ : Type*} (m : PagedMemory σ) (s : VmmState σ) (P : LawfulPmm σ)
    (D : U32 → Prop) (blank : U32) (q : σ) (I : Finset ℕ) : Prop where
  implements : m.Implements True s
  anchored : s.Anchored P.InUse D
  tracks : s.Tracks D blank q I

section Follows
variable {σ : Type*} {P : LawfulPmm σ} {D : U32 → Prop} {blank v f : U32} {q r p : σ} {I : Finset ℕ}
  {m : PagedMemory σ} {s : VmmState σ}

/-- The watermark is in no page table. -/
theorem PagedMemory.Follows.watermark (h : m.Follows s P D blank q I) (x : U32) :
    PagedMemory.Follows { m with nextVaddr := x } { s with nextVaddr := x } P D blank q I := by
  obtain ⟨hm, hs, ht⟩ := h
  exact ⟨hm.watermark x, ⟨⟨hs.wellFormed.inUse, hs.wellFormed.injective⟩, hs.openDirectory, hs.ready,
    hs.tables, hs.direct⟩, ht.pmm, ht.present, ht.tables, ht.blank⟩

/-- **A fresh page** in the memory, with its requests. -/
theorem PagedMemory.Follows.mapFreshPage (h : m.Follows s P D blank q I)
    (hD : ∀ f, D f → physToVirt f ≠ 0#32 ∧ physToVirt f ≠ blank) (hv : v.PageAligned) (hptr : ¬ IsPointer D v)
    (halloc : P.allocPage q = (f, p)) (hf : f ≠ 0#32) (hdraws : P.Draws D I (pdIndex v).toNat p r) :
    ∃ m' s', InMemory.mapFreshPage P v m = some (m', f, true) ∧
      m'.Follows s' P D blank r (insert (pdIndex v).toNat I) ∧ m.SameStatic m' ∧
      ∀ w, w.PageAligned → s'.translate w = if w = v then some f else s.translate w := by
  obtain ⟨s', hres, htracks⟩ := h.tracks.mapFreshPage hD hv halloc hf hdraws
  have hgives : ¬ IsPresent (s.pd (pdIndex v)) → Gives P.toPmmOps D (P.allocPage s.pmm).2 := by
    intro hnone _
    rw [h.tracks.present _ (pdIndex_lt v)] at hnone
    rw [h.tracks.pmm, halloc]
    exact (hdraws.resolve_left fun hmem => hnone hmem.1).2.2.2
  obtain ⟨m', hmem, himpl⟩ := h.implements.mapFreshPage h.anchored v hgives
  obtain ⟨s'', phys, ok, hres', hwf, hext, hcase⟩ := mapFreshPage_spec h.anchored.wellFormed v
  obtain ⟨rfl, hpair⟩ := Prod.mk.inj (hres'.symm.trans hres)
  obtain ⟨rfl, rfl⟩ := Prod.mk.inj hpair
  rw [hres] at hmem himpl
  rcases hcase with ⟨hfalse, -⟩ | ⟨-, -, -, -, -, -, -, htrans⟩
  · exact absurd hfalse (by simp)
  have hopen := h.anchored.openDirectory.mapFreshPage (P := P) v
  rw [hres] at hopen
  refine ⟨m', s'', hmem, ⟨himpl, ⟨hwf, hopen, hext.ready.trans h.anchored.ready, htracks.tables,
    fun g hg hDg => ?_⟩, htracks⟩, InMemory.mapFreshPage_static hmem, htrans⟩
  rw [htrans _ (physToVirt_aligned hg), if_neg fun heq => hptr ⟨g, hDg, heq⟩]
  exact h.anchored.direct g hg hDg

/-- Without a frame nothing is mapped. -/
theorem PagedMemory.Follows.mapFreshPage_fails (h : m.Follows s P D blank q I) (v : U32)
    (halloc : P.allocPage q = (0#32, p)) :
    InMemory.mapFreshPage P v m = some ({ m with pmm := p }, 0#32, false) ∧
      PagedMemory.Follows { m with pmm := p } { s with pmm := p } P D blank p I := by
  obtain ⟨hres, htracks⟩ := h.tracks.mapFreshPage_fails v halloc
  have hwf := h.anchored.wellFormed.request.1
  rw [h.tracks.pmm, halloc] at hwf
  refine ⟨?_, h.implements.request p, h.anchored.congr hwf, htracks⟩
  unfold InMemory.mapFreshPage
  simp only [h.implements.pmm, h.tracks.pmm, halloc, if_true]

/-- A page that is not mapped needs no rollback. -/
theorem PagedMemory.Follows.rollbackPage_none (h : m.Follows s P D blank q I) (hnone : s.translate v = none) :
    InMemory.rollbackPage P v m = some m := by
  have hget : vmmGetPhysical v s = none := by
    rw [vmmGetPhysical_eq]
    split
    · exact hnone
    · rfl
  unfold InMemory.rollbackPage
  rw [h.implements.getPhysical fun hi => h.anchored.reachesEntry h.implements hi, hget]
  rfl

/-- Nor do such pages. -/
theorem PagedMemory.Follows.rollbackPages_none (h : m.Follows s P D blank q I) {start : U32} (n : ℕ) {j : U32}
    (hnone : ∀ k < n, s.translate (start + (j + BitVec.ofNat 32 k) * vmmPageSize) = none) :
    InMemory.rollbackPages P start n j m = some m := by
  induction n generalizing j with
  | zero => rfl
  | succ n ih =>
    have hfirst := hnone 0 (Nat.succ_pos n)
    rw [page_zero] at hfirst
    unfold InMemory.rollbackPages
    rw [h.rollbackPage_none hfirst, Option.bind_some]
    refine ih fun k hk => ?_
    rw [page_succ]
    exact hnone (k + 1) (Nat.succ_lt_succ hk)

/-- **A page is rolled back**: its frame is given back. -/
theorem PagedMemory.Follows.rollbackPage (h : m.Follows s P D blank q I)
    (hD : ∀ f, D f → physToVirt f ≠ 0#32 ∧ physToVirt f ≠ blank) (hv : v.PageAligned) (hptr : ¬ IsPointer D v)
    (hf : s.translate v = some f) (huse : P.InUse s.pmm f) (htable : ¬ s.IsTable f) :
    ∃ m' s', InMemory.rollbackPage P v m = some m' ∧ m'.Follows s' P D blank (P.freePage f q) I ∧
      s'.pmm = P.freePage f s.pmm ∧ s'.pd = s.pd ∧ m.SameStatic m' ∧
      ∀ w, w.PageAligned → s'.translate w = if w = v then none else s.translate w := by
  -- no directory entry names the frame that is given back
  have hwf := h.anchored.wellFormed.free huse fun i hi => htable ⟨i, hi⟩
  obtain ⟨s₁, hs₁⟩ : ∃ s₁ : VmmState σ, s₁ = { s with pmm := P.freePage f s.pmm } := ⟨_, rfl⟩
  obtain ⟨m₁, hm₁⟩ : ∃ m₁ : PagedMemory σ, m₁ = { m with pmm := P.freePage f m.pmm } := ⟨_, rfl⟩
  have hanchored : s₁.Anchored P.InUse D := hs₁ ▸ h.anchored.congr hwf
  have himpl : m₁.Implements True s₁ := by
    rw [hm₁, hs₁, h.implements.pmm]
    exact h.implements.request _
  have htracks : s₁.Tracks D blank (P.freePage f q) I := by
    rw [hs₁]
    exact ⟨congrArg _ h.tracks.pmm, h.tracks.present, h.tracks.tables, h.tracks.blank⟩
  obtain ⟨m', hres, himpl', -⟩ := himpl.unmapPage
    fun _ hi => hanchored.reachesEntry himpl hi
  obtain ⟨-, -, hpmm, -⟩ := vmmUnmapPage_entry hanchored.wellFormed v
  obtain ⟨-, -, htrans⟩ := vmmUnmapPage_spec hanchored.wellFormed v
  -- the frame is looked up before the page is unmapped
  have hget : InMemory.vmmGetPhysical v m = some (some f) := by
    rw [h.implements.getPhysical fun hi => h.anchored.reachesEntry h.implements hi, vmmGetPhysical_eq,
      if_pos ⟨h.anchored.ready, hv⟩, hf]
  refine ⟨m', vmmUnmapPage v s₁, ?_, ⟨himpl', hanchored.unmapPage fun g hDg heq => hptr ⟨g, hDg, heq⟩,
    htracks.unmapPage hD v⟩, ?_, ?_, ?_, fun w hw => ?_⟩
  · unfold InMemory.rollbackPage
    rw [hget, Option.bind_some]
    rw [hm₁] at hres
    exact hres
  · rw [hpmm, hs₁]
  · rw [vmmUnmapPage_pd, hs₁]
  · have hstatic := InMemory.vmmUnmapPage_static hres
    rw [hm₁] at hstatic
    exact ⟨hstatic.1, hstatic.2⟩
  · rw [htrans w hw, hs₁]
    rfl

/-- **Fresh pages below page tables** that are there request their frames alone. -/
theorem PagedMemory.Follows.mapFreshPages (hD : ∀ f, D f → physToVirt f ≠ 0#32 ∧ physToVirt f ≠ blank)
    {start : U32} (n : ℕ) {i : U32} (h : m.Follows s P D blank q I) (hstart : start.PageAligned)
    (hpages : ∀ k < n, ¬ IsPointer D (start + (i + BitVec.ofNat 32 k) * vmmPageSize) ∧
      (pdIndex (start + (i + BitVec.ofNat 32 k) * vmmPageSize)).toNat ∈ I)
    (halloc : ∀ k < n, (P.allocPage (P.after q k)).1 ≠ 0#32) :
    ∃ m' s', InMemory.mapFreshPages P start n i m = some (m', true) ∧
      m'.Follows s' P D blank (P.after q n) I ∧ m.SameStatic m' ∧
      ∀ w, w.PageAligned → (∀ k < n, w ≠ start + (i + BitVec.ofNat 32 k) * vmmPageSize) →
        s'.translate w = s.translate w := by
  induction n generalizing i m s q with
  | zero => exact ⟨m, s, rfl, h, .refl m, fun _ _ _ => rfl⟩
  | succ n ih =>
    obtain ⟨hptr, hmem⟩ := hpages 0 (Nat.succ_pos n)
    rw [page_zero] at hptr hmem
    obtain ⟨m₁, s₁, hres₁, h₁, hstatic₁, htrans₁⟩ := h.mapFreshPage hD (page_aligned hstart i) hptr
      Prod.mk.eta.symm (halloc 0 (Nat.succ_pos n)) (.inl ⟨hmem, rfl⟩)
    -- its page table was there before
    rw [Finset.insert_eq_of_mem hmem] at h₁
    obtain ⟨m', s', hres, h', hstatic, htrans⟩ := ih (i := i + 1#32) h₁
      (fun k hk => by
        rw [page_succ]
        exact hpages (k + 1) (Nat.succ_lt_succ hk))
      (fun k hk => by
        rw [P.after_alloc]
        exact halloc (k + 1) (Nat.succ_lt_succ hk))
    rw [P.after_alloc] at h'
    refine ⟨m', s', ?_, h', hstatic₁.trans hstatic, fun w hw hne => ?_⟩
    · unfold InMemory.mapFreshPages
      rw [hres₁, Option.bind_some, if_pos rfl]
      exact hres
    · have hfirst := hne 0 (Nat.succ_pos n)
      rw [page_zero] at hfirst
      rw [htrans w hw fun k hk => by
        rw [page_succ]
        exact hne (k + 1) (Nat.succ_lt_succ hk), htrans₁ w hw, if_neg hfirst]

/-- **After `vmm_init` and `vmm_unmap_identity`**, when each directory entry of the boot map got its frame. -/
theorem vmmInit_follows (hD : ∀ f, D f → physToVirt f ≠ 0#32 ∧ physToVirt f ≠ blank) {kernelEnd : U32}
    {frames : BitVec 20 → BitVec 10 → BitVec 32} (hlow : ∀ f, D f → f < vmmMapEnd P.toPmmOps kernelEnd q)
    (hgives : ∀ p, (P.allocPage p).1.toNat < 2 ^ 30)
    (hblank : ∀ k, frames (pageOf (virtToPhys blank)) k = 0#32)
    (hanswers : P.Answers D q (bootEntries (vmmMapEnd P.toPmmOps kernelEnd q)).card) :
    ∃ m s, InMemory.vmmInit P.toPmmOps kernelEnd (.static frames q) = some m ∧
      (InMemory.vmmUnmapIdentity m).Follows s P D blank
        (P.after q (bootEntries (vmmMapEnd P.toPmmOps kernelEnd q)).card)
        ((bootEntries (vmmMapEnd P.toPmmOps kernelEnd q)).filter (768 ≤ ·)) ∧
      m.ready ∧ m.nextVaddr = (kernelVirtOffset + vmmMapEnd P.toPmmOps kernelEnd q + 0x400000#32 - 1#32) &&&
        ~~~ (0x400000#32 - 1#32) ∧
      ∀ v, v.PageAligned → s.translate v =
        if kernelVirtOffset ≤ v ∧ v - kernelVirtOffset < vmmMapEnd P.toPmmOps kernelEnd q then
          some (v - kernelVirtOffset)
        else none := by
  obtain ⟨-, hmax⟩ := vmmMapEnd_spec P.toPmmOps kernelEnd q
  obtain ⟨s, hinit, -, -, hboot, -⟩ := vmmInit_boot P.lawful kernelEnd (frameTable frames) q
  obtain ⟨m, hres, himpl, -⟩ := (@vmmInit_implements _ _ _ _ True fun s => s.WellFormed P.InUse) P.lawful
    (fun s addr virt hwf _ _ _ => by
      obtain ⟨s', r, hmap, hwf', -⟩ := vmmMapPage_spec P.lawful hwf virt addr (ptePresent ||| pteWritable)
      rw [hmap]
      exact hwf')
    (fun s _ => hgives s.pmm) (vmmCleared_spec P.InUse _ q).1 hinit
  obtain ⟨hready, htracks⟩ := vmmInit_requests hD (fun k => hblank _) hanswers hinit
  have hanchored := vmmInit_anchored P.lawful hlow hinit hready htracks.tables
  refine ⟨m, vmmUnmapIdentity s, hres, ⟨himpl.unmapIdentity.1, hanchored.unmapIdentity fun f hf => ?_,
    htracks.unmapIdentity hready⟩, himpl.ready.trans hready, himpl.nextVaddr.trans (hboot hready).2,
    fun v hv => vmmInit_directMap P.lawful hinit hready hv⟩
  have hlt := hlow f hf
  rw [BitVec.lt_def] at hlt
  exact hlt.trans_le hmax

/-! ### A page table behind another page -/

/-- Writing a directory entry does not change what the pages below the others show. -/
theorem PagedMemory.shows_storePde {p : BitVec 20} {i x : U32} (hne : (dirIndex p).setWidth 32 ≠ i) :
    (m.storePde i x).shows p = m.shows p := by
  unfold PagedMemory.shows Paging.Tables.walk
  have hdir : (m.storePde i x).tables.dir (dirIndex p) = m.tables.dir (dirIndex p) :=
    Function.update_of_ne hne _ _
  rw [hdir]
  rfl

/-- The directory entry of a new table names its frame. -/
theorem frameOf_table {g : U32} (hg : g.PageAligned) : IsPresent (g ||| ptePresent ||| pteWritable) ∧
    frameOf (g ||| ptePresent ||| pteWritable) = pageOf g := by
  have htarget := entryTarget_table hg
  have hpresent : IsPresent (g ||| ptePresent ||| pteWritable) := by
    by_contra hno
    rw [entryTarget_eq_none.mpr hno] at htarget
    exact absurd htarget (by simp)
  unfold entryTarget at htarget
  rw [if_pos hpresent, entryFrame_eq] at htarget
  refine ⟨hpresent, ?_⟩
  rw [← pageOf_pageAddr (frameOf _), Option.some.inj htarget]

/-- An empty frame as a page table: nothing is found. -/
theorem PagedMemory.walk_emptyTable {g : U32} (hg : g.PageAligned)
    (hpd : m.pd (pdIndex v) = g ||| ptePresent ||| pteWritable) (hempty : ∀ k, m.frames (pageOf g) k = 0#32) :
    m.tables.walk (pageOf v) = none := by
  obtain ⟨hpresent, hframe⟩ := frameOf_table hg
  have hdir : m.tables.dir (dirIndex (pageOf v)) = g ||| ptePresent ||| pteWritable := by
    rw [pdIndex_eq] at hpd
    exact hpd
  unfold Paging.Tables.walk Paging.Tables.under Paging.translation
  rw [hdir, if_neg (by simpa using (isPresent_iff_present _).mp hpresent),
    if_neg (by simp [(openEntry_table hg hpresent).2]), hframe,
    show m.tables.table (pageOf g) (tableIndex (pageOf v)) = 0#32 from hempty _]
  rfl

/-- **A page table behind another page**: when the pointer to the frame of a new page table is the address of
another page, that page is cleared, and the frame stays as it was. -/
theorem PagedMemory.Follows.ensurePageTable_elsewhere (h : m.Follows s P D blank q I) {g d : U32}
    (hnone : (pdIndex v).toNat ∉ I) (htable : P.allocPage p = (g, r)) (hg : g ≠ 0#32)
    (hblank : physToVirt g = blank) (hd : s.translate blank = some d) (hDd : ¬ D d) (hdg : d ≠ g) :
    ∃ m', InMemory.vmmEnsurePageTable P.toPmmOps (pdIndex v) { m with pmm := p } = some (m', blank) ∧
      m'.shows (pageOf blank) = some (pageOf d) ∧ pageOf g ≠ pageOf d ∧
      (∀ k, m'.frames (pageOf g) k = 0#32) ∧ m'.pd (pdIndex v) = g ||| ptePresent ||| pteWritable := by
  have halign : g.PageAligned := by
    have hfresh := P.lawful.fresh p
    rw [htable] at hfresh
    exact (hfresh hg).1
  have hbalign : blank.PageAligned := hblank ▸ physToVirt_aligned halign
  have hdalign : d.PageAligned := by
    have hd' := hd
    rw [VmmState.translate_eq] at hd'
    obtain ⟨e, -, rfl⟩ := Option.map_eq_some_iff.mp hd'
    exact entryFrame_aligned e
  -- the table and the other page have different frames
  have hgd : pageOf g ≠ pageOf d := by
    intro heq
    rw [← pageAddr_pageOf halign, heq, pageAddr_pageOf hdalign] at hdg
    exact hdg rfl
  have hpde : ¬ IsPresent (m.pd (pdIndex v)) := by
    rw [h.implements.pd, h.tracks.present _ (pdIndex_lt v)]
    exact hnone
  -- the other page has a page table, and the new one had none
  have hdir : (dirIndex (pageOf blank)).setWidth 32 ≠ pdIndex v := by
    rw [← pdIndex_eq]
    intro heq
    have hpresent := VmmState.isPresent_of_translate (v := blank) (by rw [hd]; simp)
    rw [heq, ← h.implements.pd] at hpresent
    exact hpde hpresent
  obtain ⟨m₂, hm₂⟩ : ∃ m₂ : PagedMemory σ, m₂ = { m with pmm := r } := ⟨_, rfl⟩
  -- the pointer leads to the frame of the other page, which is no page table
  have hshow : m₂.shows (pageOf blank) = some (pageOf d) := by
    have hshows := h.implements.shows h.anchored.openDirectory (pageOf blank)
    rw [if_pos h.anchored.ready, pageAddr_pageOf hbalign, hd] at hshows
    rw [hm₂]
    exact hshows
  have hunread : ∀ p k, ¬ m₂.tables.Reads p (pageOf d) k := by
    rw [hm₂]
    intro p k hr
    have hd' := h.tracks.tables _ (h.implements.isTable_of_reads (p := p) (k := k) hr)
    rw [pageAddr_pageOf hdalign] at hd'
    exact hDd hd'
  obtain ⟨m₃, hzero, hm₃⟩ := PagedMemory.memzeroPage_shows hshow hbalign hunread 1024 le_rfl
  refine ⟨m₃.storePde (pdIndex v) (g ||| ptePresent ||| pteWritable), ?_, ?_, hgd, fun k => ?_,
    Function.update_self ..⟩
  · unfold InMemory.vmmEnsurePageTable
    simp only [if_neg hpde, htable, if_neg hg, hblank, ← hm₂]
    rw [hzero]
    rfl
  · rw [PagedMemory.shows_storePde hdir,
      PagedMemory.shows_update hunread _ (by rw [hm₃]) (by rw [hm₃]) (by rw [hm₃])]
    exact hshow
  · have hword := h.implements.words (pageOf g) k (.inl trivial)
    rw [pageAddr_pageOf halign, hblank, h.tracks.blank] at hword
    unfold PagedMemory.storePde
    dsimp only
    rw [hm₃]
    dsimp only
    rw [Function.update_of_ne hgd, hm₂]
    exact hword

/-- **Then the mapping is lost**: the other page gets the entry, and the processor, which reads the frame,
finds nothing. -/
theorem PagedMemory.Follows.mapFreshPage_lost (h : m.Follows s P D blank q I) {g d : U32}
    (hv : v.PageAligned) (hnone : (pdIndex v).toNat ∉ I) (halloc : P.allocPage q = (f, p)) (hf : f ≠ 0#32)
    (htable : P.allocPage p = (g, r)) (hg : g ≠ 0#32) (hblank : physToVirt g = blank)
    (hnull : blank ≠ 0#32) (hd : s.translate blank = some d) (hDd : ¬ D d) (hdg : d ≠ g) :
    ∃ m', InMemory.mapFreshPage P v m = some (m', f, true) ∧ m.SameStatic m' ∧
      m'.tables.walk (pageOf v) = none := by
  have halign : f.PageAligned ∧ g.PageAligned := by
    have hfresh := P.lawful.fresh q
    have hfresh' := P.lawful.fresh p
    rw [halloc] at hfresh
    rw [htable] at hfresh'
    exact ⟨(hfresh hf).1, (hfresh' hg).1⟩
  obtain ⟨m₁, hens, hshow, hgd, hempty, hpd⟩ :=
    h.ensurePageTable_elsewhere hnone htable hg hblank hd hDd hdg
  -- the entry goes to the other page
  have hstore := PagedMemory.store_word hshow (hblank ▸ physToVirt_aligned halign.2) (ptIndex_lt v)
    (entryFrame f ||| ((ptePresent ||| pteWritable) &&& 0xFFF#32))
  obtain ⟨m₂, hres⟩ : ∃ m₂, m₁.store (blank + 4#32 * ptIndex v)
      (entryFrame f ||| ((ptePresent ||| pteWritable) &&& 0xFFF#32)) = some m₂ := ⟨_, hstore⟩
  have hflags : ¬ (ptePresent ||| pteWritable) &&& pteUser ≠ 0#32 := by decide
  have hmap : InMemory.vmmMapPage P.toPmmOps v f (ptePresent ||| pteWritable) { m with pmm := p } =
      some (m₂.invlpg v, 0) := by
    unfold InMemory.vmmMapPage
    rw [if_neg (by simp [hv, halign.1])]
    simp only [hens, Option.bind_some, if_neg hnull, if_neg hflags, hres, Option.map_some]
  have hrun : InMemory.mapFreshPage P v m = some (m₂.invlpg v, f, true) := by
    unfold InMemory.mapFreshPage
    simp only [h.implements.pmm, h.tracks.pmm, halloc, if_neg hf, hmap, Option.map_some, ne_eq,
      not_true_eq_false, if_false]
  refine ⟨m₂.invlpg v, hrun, InMemory.mapFreshPage_static hrun, ?_⟩
  -- the processor looks in the frame, which nothing has written
  have hfound : m₂.tables.walk (pageOf v) = none := by
    obtain rfl := Option.some.inj (hstore.symm.trans hres)
    exact PagedMemory.walk_emptyTable halign.2 hpd
      fun k => (congrFun (Function.update_of_ne hgd _ _) k).trans (hempty k)
  unfold PagedMemory.invlpg
  split
  · exact hfound
  · exact hfound

end Follows

end Microkernel.Vmm
