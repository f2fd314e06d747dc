import Microkernel.Lib.TranslationCache
import Microkernel.Vmm.AddressSpace

/-! # Cached translations of the page tables

The processor may cache entries of the directory and translations at any moment, also between two writes
of one call. `vmm_map_page` and `vmm_unmap_page` invalidate one page, `vmm_unmap_identity` reloads `CR3`.
Each call leaves only its own pages stale, and none when it returns.

* **`vmmMapPageEvents`** — the writes and the invalidations of a call, in their order, as a program over
  the processor of `Lib/TranslationCache`.
* **`vmmMapPage_always`, `vmmUnmapPage_always`, `vmmUnmapIdentity_always`** — what each call leaves stale
  and disturbs, whatever is cached between two of its writes.
* **`orUser_always`** — why setting the user bit of a directory entry needs no invalidation.
-/

namespace Microkernel.Vmm

open Function (update)
open Paging (pageOf dirIndex tableIndex frameOf Translation Event Mmu)

/-! ### What the calls write

The writes in their order, with the invalidations; a page table by its frame. -/

section Events
variable {σ : Type*} (ops : PmmOps σ)

/-- `memzero_page` on the page table in a frame. -/
def memzeroPageEvents (f : BitVec 20) : List Event :=
  ((List.range 1024).map (BitVec.ofNat 10)).map fun k => .storeTable f k 0#32

/-- `vmm_ensure_page_table(pd_idx)`. -/
def vmmEnsurePageTableEvents (pdIdx : U32) (s : VmmState σ) : List Event :=
  if IsPresent (s.pd pdIdx) then []
  else
    let ptPhys := (ops.allocPage s.pmm).1
    if ptPhys = 0#32 then []
    else memzeroPageEvents (pageOf ptPhys) ++
      [.storeDir (pdIdx.setWidth 10) (ptPhys ||| ptePresent ||| pteWritable)]

/-- `vmm_map_page(virt, phys, flags)`. -/
def vmmMapPageEvents (virt phys flags : U32) (s : VmmState σ) : List Event :=
  if ¬ virt.PageAligned ∨ ¬ phys.PageAligned then []
  else
    let pdi := pdIndex virt
    let pti := ptIndex virt
    let (s₁, pt) := vmmEnsurePageTable ops pdi s
    vmmEnsurePageTableEvents ops pdi s ++
      if pt = 0#32 then []
      else
        (if flags &&& pteUser ≠ 0#32 then [.storeDir (pdi.setWidth 10) (s₁.pd pdi ||| pteUser)]
          else []) ++
        ([.storeTable (pageOf (virtToPhys pt)) (pti.setWidth 10) (mapEntry phys flags)] ++
          if s.ready then [.invlpg virt] else [])

/-- `vmm_unmap_page(virt)`. -/
def vmmUnmapPageEvents (virt : U32) (s : VmmState σ) : List Event :=
  if ¬ virt.PageAligned then []
  else
    let pde := s.pd (pdIndex virt)
    if ¬ IsPresent pde then []
    else
      let pt := physToVirt (entryFrame pde)
      [.storeTable (pageOf (virtToPhys pt)) ((ptIndex virt).setWidth 10) 0#32] ++
        if s.ready then [.invlpg virt] else []

/-- `vmm_unmap_identity()`. -/
def vmmUnmapIdentityEvents (s : VmmState σ) : List Event :=
  if ¬ s.ready then []
  else
    let firstKernelPde := (pdIndex kernelVirtOffset).toNat
    ((((List.range firstKernelPde).map (BitVec.ofNat 10)).filter
      fun i => IsPresent (s.pd (i.setWidth 32))).map fun i => .storeDir i 0#32) ++ [.reload]

end Events

/-- What a call does to the tables. -/
def vmmCallEvents (s : VmmState Frames) : VmmCall → List Event
  | .map virt phys flags source =>
      vmmMapPageEvents framesOps virt phys flags { s with pmm := { s.pmm with source := source } }
  | .unmap virt => vmmUnmapPageEvents virt s
  | .unmapIdentity => vmmUnmapIdentityEvents s

/-- What the calls do to the tables, one after another. -/
def vmmCallsEvents (s : VmmState Frames) : List VmmCall → List Event
  | [] => []
  | call :: calls => vmmCallEvents s call ++ vmmCallsEvents (vmmCall s call).1 calls

/-! ### Writes and tables -/

section Writes
variable {σ : Type*} {s : VmmState σ}

theorem setWidth_inj {i j : BitVec 10} : i.setWidth 32 = j.setWidth 32 ↔ i = j := by
  constructor
  · intro h
    rw [← BitVec.toNat_inj, BitVec.toNat_setWidth, BitVec.toNat_setWidth] at h
    apply BitVec.eq_of_toNat_eq
    omega
  · rintro rfl
    rfl

/-- Writing an entry of the directory. -/
theorem tables_storeDir (s : VmmState σ) (i : BitVec 10) (e : U32) :
    VmmState.tables { s with pd := update s.pd (i.setWidth 32) e } = s.tables.storeDir i e := by
  have hdir : (fun j : BitVec 10 => update s.pd (i.setWidth 32) e (j.setWidth 32)) =
      update s.tables.dir i e := by
    funext j
    simp only [Function.update_apply, setWidth_inj]
    rfl
  exact congrArg (fun d => Paging.Tables.mk d s.tables.table) hdir

/-- Writing a page table. -/
theorem tables_update (s : VmmState σ) (f : BitVec 20) (g : U32 → U32) :
    VmmState.tables { s with table := update s.table (physToVirt (pageAddr f)) g } =
      { s.tables with table := update s.tables.table f fun k => g (k.setWidth 32) } := by
  have htable : (fun (f' : BitVec 20) (k : BitVec 10) =>
      update s.table (physToVirt (pageAddr f)) g (physToVirt (pageAddr f')) (k.setWidth 32)) =
        update s.tables.table f fun k => g (k.setWidth 32) := by
    funext f' k
    simp only [Function.update_apply, physToVirt_inj, pageAddr_inj]
    split
    · rfl
    · rfl
  unfold VmmState.tables at htable ⊢
  dsimp only at htable ⊢
  rw [htable]

/-- Writing an entry of a page table. -/
theorem tables_storeTable (s : VmmState σ) (f : BitVec 20) (k : BitVec 10) (e : U32) :
    VmmState.tables { s with
      table := update s.table (physToVirt (pageAddr f))
        (update (s.table (physToVirt (pageAddr f))) (k.setWidth 32) e) } =
      s.tables.storeTable f k e := by
  have hentry : (fun j : BitVec 10 =>
      update (s.table (physToVirt (pageAddr f))) (k.setWidth 32) e (j.setWidth 32)) =
        update (s.tables.table f) k e := by
    funext j
    simp only [Function.update_apply, setWidth_inj]
    rfl
  rw [tables_update, hentry]
  rfl

end Writes

/-! ### What the processor relies on -/

section Always
variable {σ : Type*} {ops : PmmOps σ} {InUse : σ → U32 → Prop} {s s' : VmmState σ} {m : Mmu}
  {P : Mmu → Prop}

/-- The tables are well formed and no directory entry restricts a mapping. -/
structure VmmState.Readable (s : VmmState σ) (InUse : σ → U32 → Prop) : Prop where
  wellFormed : s.WellFormed InUse
  openDirectory : s.OpenDirectory
  covered : s.UserCovered

/-- Operations that change no entry change no translation. -/
theorem VmmState.Readable.of_entry (h : s.Readable InUse) (hwf : s'.WellFormed InUse)
    (hext : s.Extends s' InUse) (hopen : s'.OpenDirectory) (hentry : ∀ v, s'.entry v = s.entry v) :
    s'.Readable InUse ∧ ∀ p, s'.tables.walk p = s.tables.walk p := by
  have hcovered : s'.UserCovered := fun v hv hu => h.covered.mono hext hv (hentry v) hu
  refine ⟨⟨hwf, hopen, hcovered⟩, fun p => ?_⟩
  rw [VmmState.walk_eq hopen hcovered, VmmState.walk_eq h.openDirectory h.covered, hentry]

/-- The page table that a translation reads is the one of its directory entry. -/
theorem VmmState.dir_of_reads {p f : BitVec 20} {k : BitVec 10} (h : s.tables.Reads p f k) :
    entryTarget (s.pd (pdIndex (pageAddr p))) = some (pageAddr f) := by
  have hpd : s.pd (pdIndex (pageAddr p)) = s.tables.dir (dirIndex p) := by
    rw [pdIndex_eq, pageOf_pageAddr]
    rfl
  rw [hpd]
  unfold entryTarget
  rw [if_pos ((isPresent_iff_present _).mpr h.present), entryFrame_eq, h.frame]

/-! ### The calls -/

/-- Every index is cleared. -/
theorem mem_indices (k : BitVec 10) : k ∈ (List.range 1024).map (BitVec.ofNat 10) := by
  refine List.mem_map.mpr ⟨k.toNat, List.mem_range.mpr k.isLt, ?_⟩
  exact BitVec.ofNat_toNat 10 k

/-- **`vmm_ensure_page_table`** leaves no page stale, and changes no translation at any moment. -/
theorem vmmEnsurePageTable_always (hops : ops.Lawful InUse) (h : s.Readable InUse) (i : BitVec 10)
    (hm : m.At s.tables ∅)
    (hP : ∀ m' t, m'.At t ∅ → (∀ p, t.walk p = s.tables.walk p) → P m') :
    m.Always (vmmEnsurePageTableEvents ops (i.setWidth 32) s) P
      (·.At (vmmEnsurePageTable ops (i.setWidth 32) s).1.tables ∅) := by
  obtain ⟨s', pt, hres, hwf', hext', hentry', -⟩ :=
    vmmEnsurePageTable_spec hops h.wellFormed (i.setWidth 32)
  have hopen' := vmmEnsurePageTable_directory (fun _ hf => openEntry_table hf) h.openDirectory hops
    (i.setWidth 32)
  rw [hres] at hopen' ⊢
  obtain ⟨-, hwalk'⟩ := h.of_entry hwf' hext' hopen' hentry'
  have hfresh := hops.fresh s.pmm
  obtain ⟨f, pmm, halloc⟩ : ∃ f pmm, ops.allocPage s.pmm = (f, pmm) := ⟨_, _, rfl⟩
  unfold vmmEnsurePageTableEvents
  unfold vmmEnsurePageTable at hres
  rw [halloc] at hfresh hres ⊢
  dsimp only at hfresh hres ⊢
  by_cases hpde : IsPresent (s.pd (i.setWidth 32))
  · rw [if_pos hpde] at hres ⊢
    obtain ⟨rfl, -⟩ := Prod.mk.inj hres
    exact hm.always_nil fun m' h' => ⟨hP m' _ h' fun _ => rfl, h'⟩
  rw [if_neg hpde] at hres ⊢
  by_cases hnull : f = 0#32
  · rw [if_pos hnull] at hres ⊢
    obtain ⟨rfl, -⟩ := Prod.mk.inj hres
    exact hm.always_nil fun m' h' => ⟨hP m' _ h' fun _ => rfl, h'⟩
  rw [if_neg hnull] at hres ⊢
  obtain ⟨haligned, hnew, -⟩ := hfresh hnull
  -- nothing points to the new table while it is cleared
  have hunread : ∀ p k, ¬ s.tables.Reads p (pageOf f) k := by
    intro p k hr
    have htarget := VmmState.dir_of_reads hr
    rw [pageAddr_pageOf haligned] at htarget
    exact hnew (h.wellFormed.inUse _ _ htarget)
  obtain ⟨s₁, hs₁⟩ : ∃ s₁ : VmmState σ, s₁ = { s with
      pmm := pmm
      table := update s.table (physToVirt f) (memzeroPage (s.table (physToVirt f)) 1024) } := ⟨_, rfl⟩
  have htables : s₁.tables = { s.tables with
      table := update s.tables.table (pageOf f) fun k =>
        if k ∈ (List.range 1024).map (BitVec.ofNat 10) then 0#32 else s.tables.table (pageOf f) k } := by
    have hzero : (fun k : BitVec 10 => memzeroPage (s.table (physToVirt f)) 1024 (k.setWidth 32)) =
        fun k => if k ∈ (List.range 1024).map (BitVec.ofNat 10) then 0#32
          else s.tables.table (pageOf f) k := by
      funext k
      have hk : (k.setWidth 32).toNat < 1024 := by
        rw [BitVec.toNat_setWidth]
        omega
      rw [if_pos (mem_indices k), memzeroPage_eq _ (by decide), if_pos hk]
    have hupdate := tables_update s (pageOf f) (memzeroPage (s.table (physToVirt f)) 1024)
    rw [pageAddr_pageOf haligned, hzero] at hupdate
    rw [hs₁]
    exact hupdate
  refine (hm.always_storeTable hunread _ hP).append fun m' h' => ?_
  rw [← htables] at h'
  -- then it is linked, at an entry that was not present
  have hlinked : s'.tables = s₁.tables.storeDir i (f ||| ptePresent ||| pteWritable) := by
    rw [← tables_storeDir, hs₁, ← (Prod.mk.inj hres).1]
  have habsent : ∀ p, dirIndex p = i → Paging.present (s.tables.dir (dirIndex p)) = false := by
    rintro p rfl
    cases hp : Paging.present (s.tables.dir (dirIndex p)) with
    | false => rfl
    | true => exact absurd ((isPresent_iff_present _).mpr hp) hpde
  have hdir : s₁.tables.dir = s.tables.dir := by rw [htables]
  have hwalk₁ : ∀ p, s₁.tables.walk p = s.tables.walk p := fun p => by
    rw [htables]
    exact Paging.Tables.walk_update (hunread p) _
  rw [show (i.setWidth 32).setWidth 10 = i by simp]
  refine h'.always_single (fun m'' h'' => ?_) fun m'' h'' => ?_
  · rw [hlinked]
    refine h''.storeDir subset_rfl fun p _ hp => ⟨?_, fun hpresent => ?_⟩
    · rw [← hlinked, hwalk', hwalk₁]
    · have hnot := habsent p hp
      rw [hdir, ← hp, hnot] at hpresent
      exact absurd hpresent (by decide)
  · rcases h'' with h'' | h''
    · exact hP m'' _ h'' hwalk₁
    · exact hP m'' _ h'' hwalk'

/-- **Setting the user bit** of a directory entry leaves no page stale: no page under it has the bit
already, unless the directory entry has it. -/
theorem orUser_always (h : s.Readable InUse) (i : BitVec 10) (hpresent : IsPresent (s.pd (i.setWidth 32)))
    (hs' : s' = { s with pd := update s.pd (i.setWidth 32) (s.pd (i.setWidth 32) ||| pteUser) })
    (hm : m.At s.tables ∅) (hP : ∀ m' t, m'.At t ∅ → (∀ p, t.walk p = s.tables.walk p) → P m') :
    m.Always [.storeDir i (s.pd (i.setWidth 32) ||| pteUser)] P (·.At s'.tables ∅) ∧
      s'.Readable InUse ∧ ∀ p, s'.tables.walk p = s.tables.walk p := by
  obtain ⟨hwf', hext', hdir', -⟩ := h.wellFormed.orUser (i.setWidth 32) hs'
  have hopen' : s'.OpenDirectory := by
    intro j
    rw [hs']
    simp only [Function.update_apply]
    split
    · exact (h.openDirectory _).orUser
    · exact h.openDirectory j
  have hentry' : ∀ v, s'.entry v = s.entry v := by
    intro v
    unfold VmmState.entry
    rw [hdir', hs']
  obtain ⟨hreadable', hwalk'⟩ := h.of_entry hwf' hext' hopen' hentry'
  have htables : s'.tables = s.tables.storeDir i (s.pd (i.setWidth 32) ||| pteUser) := by
    rw [← tables_storeDir, hs']
  refine ⟨hm.always_single (fun m' h' => ?_) fun m' h' => ?_, hreadable', hwalk'⟩
  · rw [htables]
    refine h'.storeDir subset_rfl fun p _ _ => ⟨by rw [← htables, hwalk'], fun _ => ?_⟩
    -- the same table, and no large page
    have hopen := h.openDirectory (i.setWidth 32)
    have hpresent' : IsPresent (s.pd (i.setWidth 32) ||| pteUser) := (isPresent_or _ _).mpr (.inl hpresent)
    refine ⟨⟨(isPresent_iff_present _).mp hpresent, (isPresent_iff_present _).mp hpresent'⟩,
      ⟨(hopen hpresent).2, (hopen.orUser hpresent').2⟩, ?_⟩
    rw [← pageAddr_inj, ← entryFrame_eq, ← entryFrame_eq, entryFrame_or,
      show entryFrame pteUser = 0#32 from rfl, BitVec.or_zero]
    rfl
  · rcases h' with h' | h'
    · exact hP m' _ h' fun _ => rfl
    · exact hP m' _ h' hwalk'

/-- Until the page is invalidated, the accesses to the others find what they found before. -/
def Undisturbed (t : Paging.Tables) (pages : Set (BitVec 20)) (m : Mmu) : Prop :=
  ∀ p ∉ pages, ∀ r, m.Uses p r → r = t.walk p

/-- A processor that is at the new tables but for these pages finds the other pages as they were. -/
theorem undisturbed_of_at {t t' : Paging.Tables} {stale pages : Set (BitVec 20)} (h : m.At t' stale)
    (hsub : stale ⊆ pages) (hwalk : ∀ p ∉ pages, t'.walk p = t.walk p) : Undisturbed t pages m :=
  fun p hp _ hr => (h.uses (fun hs => hp (hsub hs)) hr).trans (hwalk p hp)

/-- **Writing the entry of a page** leaves this page stale, until `invlpg`. -/
theorem writeEntry_always (hwf : s.WellFormed InUse) {virt pt : U32}
    (hpt : s.dir (pdIndex virt) = some pt) (e : U32)
    (hs' : s' = { s with table := update s.table pt (update (s.table pt) (ptIndex virt) e) })
    (hm : m.At s.tables ∅) {t : Paging.Tables} (ht : ∀ p, s.tables.walk p = t.walk p) :
    m.Always ([.storeTable (pageOf (virtToPhys pt)) ((ptIndex virt).setWidth 10) e] ++ [.invlpg virt])
      (Undisturbed t {pageOf virt}) (·.At s'.tables ∅) := by
  obtain ⟨f, hf, rfl⟩ := Option.map_eq_some_iff.mp hpt
  obtain ⟨q, rfl⟩ : ∃ q, pageAddr q = f := by
    unfold entryTarget at hf
    split at hf
    · exact ⟨_, (entryFrame_eq _).symm.trans (Option.some.inj hf)⟩
    · exact absurd hf (by simp)
  rw [virtToPhys_physToVirt, pageOf_pageAddr, ptIndex_eq, show
    ((tableIndex (pageOf virt)).setWidth 32).setWidth 10 = tableIndex (pageOf virt) by simp]
  -- no other page has its entry there
  have hreads : ∀ p, s.tables.Reads p q (tableIndex (pageOf virt)) → p ∈ ({pageOf virt} : Set _) := by
    intro p hr
    have hdir := hwf.injective _ _ _ (VmmState.dir_of_target (VmmState.dir_of_reads hr)) hpt
    rw [pdIndex_eq, pdIndex_eq, setWidth_inj, pageOf_pageAddr] at hdir
    exact Paging.page_ext hdir hr.index
  have htables : s'.tables = s.tables.storeTable q (tableIndex (pageOf virt)) e := by
    rw [← tables_storeTable, hs', ptIndex_eq]
  have hwalk : ∀ p ∉ ({pageOf virt} : Set (BitVec 20)), s'.tables.walk p = t.walk p := by
    intro p hp
    rw [htables, ← ht p]
    exact Paging.Tables.walk_storeTable fun hr => hp (hreads p hr)
  have hstored : ∀ m' : Mmu, m'.At s.tables ∅ →
      (m'.step (.storeTable q (tableIndex (pageOf virt)) e)).At s'.tables {pageOf virt} := by
    intro m' h'
    rw [htables]
    exact h'.storeTable (Set.empty_subset _) hreads
  refine (hm.always_single hstored fun m' h' => ?_).append fun m' h' => ?_
  · rcases h' with h' | h'
    · exact undisturbed_of_at h' (Set.empty_subset _) fun p _ => ht p
    · exact undisturbed_of_at h' subset_rfl hwalk
  · refine h'.always_single (fun m'' h'' => ?_) fun m'' h'' => ?_
    · have hinv := h''.invlpg virt
      rwa [Set.sdiff_self] at hinv
    · rcases h'' with h'' | h''
      · exact undisturbed_of_at h'' subset_rfl hwalk
      · exact undisturbed_of_at h'' (Set.empty_subset _) hwalk

/-- **`vmm_map_page`** disturbs no other page at any moment, and leaves none stale. -/
theorem vmmMapPage_always (hops : ops.Lawful InUse) (h : s.Readable InUse) (hready : s.ready)
    (virt phys flags : U32) (hm : m.At s.tables ∅) :
    m.Always (vmmMapPageEvents ops virt phys flags s) (Undisturbed s.tables {pageOf virt})
      (·.At (vmmMapPage ops virt phys flags s).1.tables ∅) := by
  have hundisturbed : ∀ m' t, Mmu.At m' t ∅ → (∀ p, t.walk p = s.tables.walk p) →
      Undisturbed s.tables {pageOf virt} m' :=
    fun m' t h' hwalk => undisturbed_of_at h' (Set.empty_subset _) fun p _ => hwalk p
  unfold vmmMapPageEvents vmmMapPage
  by_cases halign : ¬ virt.PageAligned ∨ ¬ phys.PageAligned
  · rw [if_pos halign, if_pos halign]
    exact hm.always_nil fun m' h' => ⟨hundisturbed m' _ h' fun _ => rfl, h'⟩
  rw [if_neg halign, if_neg halign]
  obtain ⟨s₁, pt, hres, hwf₁, hext₁, hentry₁, hpt⟩ :=
    vmmEnsurePageTable_spec hops h.wellFormed (pdIndex virt)
  have hopen₁ := vmmEnsurePageTable_directory (fun _ hf => openEntry_table hf) h.openDirectory hops
    (pdIndex virt)
  have hensure := vmmEnsurePageTable_always hops h (dirIndex (pageOf virt)) hm hundisturbed
  rw [← pdIndex_eq, hres] at hensure
  rw [hres] at hopen₁
  obtain ⟨h₁, hwalk₁⟩ := h.of_entry hwf₁ hext₁ hopen₁ hentry₁
  simp only [hres]
  refine hensure.append fun m₁ hm₁ => ?_
  by_cases hnull : pt = 0#32
  · rw [if_pos hnull, if_pos hnull]
    exact hm₁.always_nil fun m' h' => ⟨hundisturbed m' _ h' hwalk₁, h'⟩
  rw [if_neg hnull, if_neg hnull, if_pos hready]
  have hpresent : IsPresent (s₁.pd (pdIndex virt)) := by
    obtain ⟨f, hf, -⟩ := Option.map_eq_some_iff.mp (hpt hnull)
    by_contra hnot
    rw [entryTarget_eq_none.mpr hnot] at hf
    exact absurd hf (by simp)
  -- the directory entry may get the user bit before the entry is written
  obtain ⟨s₂, hs₂, halways₂, h₂, hwalk₂, hdir₂⟩ : ∃ s₂ : VmmState σ,
      s₂ = (if flags &&& pteUser ≠ 0#32 then
        { s₁ with pd := update s₁.pd (pdIndex virt) (s₁.pd (pdIndex virt) ||| pteUser) } else s₁) ∧
      m₁.Always (if flags &&& pteUser ≠ 0#32 then
        [.storeDir ((pdIndex virt).setWidth 10) (s₁.pd (pdIndex virt) ||| pteUser)] else [])
        (Undisturbed s.tables {pageOf virt}) (·.At s₂.tables ∅) ∧
      s₂.Readable InUse ∧ (∀ p, s₂.tables.walk p = s.tables.walk p) ∧ s₂.dir = s₁.dir := by
    by_cases huser : flags &&& pteUser ≠ 0#32
    · obtain ⟨-, -, hdir, -⟩ := hwf₁.orUser (pdIndex virt) rfl
      have hindex : ((pdIndex virt).setWidth 10).setWidth 32 = pdIndex virt := by
        rw [pdIndex_eq]
        simp
      have hor := orUser_always h₁ ((pdIndex virt).setWidth 10) (by rw [hindex]; exact hpresent) rfl
        hm₁
        (P := Undisturbed s.tables {pageOf virt})
        (fun m' t h' hwalk => hundisturbed m' t h' fun p => (hwalk p).trans (hwalk₁ p))
      rw [hindex] at hor
      obtain ⟨halways, h₂, hwalk₂⟩ := hor
      refine ⟨_, (if_pos huser).symm, ?_, h₂, fun p => (hwalk₂ p).trans (hwalk₁ p), hdir⟩
      rw [if_pos huser]
      exact halways
    · refine ⟨_, (if_neg huser).symm, ?_, h₁, hwalk₁, rfl⟩
      rw [if_neg huser]
      exact hm₁.always_nil fun m' h' => ⟨hundisturbed m' _ h' hwalk₁, h'⟩
  rw [← hs₂]
  exact halways₂.append fun m₂ hm₂ =>
    writeEntry_always h₂.wellFormed ((congrFun hdir₂ _).trans (hpt hnull)) (mapEntry phys flags) rfl hm₂ hwalk₂

/-- **`vmm_unmap_page`** disturbs no other page at any moment, and leaves none stale. -/
theorem vmmUnmapPage_always (hwf : s.WellFormed InUse) (hready : s.ready) (virt : U32)
    (hm : m.At s.tables ∅) :
    m.Always (vmmUnmapPageEvents virt s) (Undisturbed s.tables {pageOf virt})
      (·.At (vmmUnmapPage virt s).tables ∅) := by
  have hnothing : m.Always [] (Undisturbed s.tables {pageOf virt}) (·.At s.tables ∅) :=
    hm.always_nil fun m' h' => ⟨undisturbed_of_at h' (Set.empty_subset _) fun _ _ => rfl, h'⟩
  unfold vmmUnmapPageEvents vmmUnmapPage
  by_cases hvirt : virt.PageAligned
  · rw [if_neg (not_not.mpr hvirt), if_neg (not_not.mpr hvirt)]
    dsimp only
    by_cases hpde : IsPresent (s.pd (pdIndex virt))
    · rw [if_neg (not_not.mpr hpde), if_neg (not_not.mpr hpde), if_pos hready]
      exact writeEntry_always hwf (VmmState.dir_of_target (if_pos hpde)) 0#32 rfl hm fun _ => rfl
    · rw [if_pos hpde, if_pos hpde]
      exact hnothing
  · rw [if_pos hvirt, if_pos hvirt]
    exact hnothing

/-- The pages below the high half. -/
def lowPages : Set (BitVec 20) := {p | pageAddr p < kernelVirtOffset}

/-- They are those of the first directory entries. -/
theorem mem_lowPages (p : BitVec 20) : p ∈ lowPages ↔ (dirIndex p).toNat < 768 := by
  have hoffset : kernelVirtOffset.toNat = 768 * 2 ^ 22 := by decide
  unfold lowPages
  rw [Set.mem_ofPred_eq, BitVec.lt_def, pageAddr_toNat, hoffset, Paging.dirIndex_toNat]
  omega

/-- **`vmm_unmap_identity`** disturbs no page of the high half, and leaves no page stale. -/
theorem vmmUnmapIdentity_always (hready : s.ready) (hm : m.At s.tables ∅) :
    m.Always (vmmUnmapIdentityEvents s) (Undisturbed s.tables lowPages)
      (·.At (vmmUnmapIdentity s).tables ∅) := by
  have hn : (pdIndex kernelVirtOffset).toNat = 768 := by decide
  unfold vmmUnmapIdentityEvents
  rw [if_neg (not_not.mpr hready), hn]
  dsimp only
  set cleared := ((List.range 768).map (BitVec.ofNat 10)).filter
    fun i => IsPresent (s.pd (i.setWidth 32)) with hcleared
  have hmem : ∀ i : BitVec 10, i ∈ cleared ↔ i.toNat < 768 ∧ IsPresent (s.pd (i.setWidth 32)) := by
    intro i
    rw [hcleared, List.mem_filter, List.mem_map, decide_eq_true_eq]
    refine and_congr_left fun _ => ⟨?_, fun hi => ⟨i.toNat, List.mem_range.mpr hi, BitVec.ofNat_toNat 10 i⟩⟩
    rintro ⟨n, hlt, rfl⟩
    rw [List.mem_range] at hlt
    rw [BitVec.toNat_ofNat]
    omega
  have htables : (vmmUnmapIdentity s).tables =
      { s.tables with dir := fun i => if i ∈ cleared then 0#32 else s.tables.dir i } := by
    obtain ⟨htable, -⟩ := vmmUnmapIdentity_rest s
    have hdir : (vmmUnmapIdentity s).tables.dir =
        fun i => if i ∈ cleared then 0#32 else s.tables.dir i := by
      funext i
      have hi : (i.setWidth 32).toNat = i.toNat := by
        rw [BitVec.toNat_setWidth]
        omega
      show (vmmUnmapIdentity s).pd (i.setWidth 32) = _
      unfold vmmUnmapIdentity
      rw [if_neg (not_not.mpr hready), hn]
      show unmapIdentityLoop s.pd 768 (i.setWidth 32) = _
      rw [unmapIdentityLoop_eq s.pd (by decide), hi]
      simp only [hmem]
      rfl
    have htable' : (vmmUnmapIdentity s).tables.table = s.tables.table := by
      unfold VmmState.tables
      rw [htable]
    show Paging.Tables.mk (vmmUnmapIdentity s).tables.dir (vmmUnmapIdentity s).tables.table = _
    rw [hdir, htable']
  refine ((hm.mono (Set.empty_subset lowPages)).always_storeDir cleared (fun p hp => ?_)
    fun m' t h' hwalk => undisturbed_of_at h' subset_rfl hwalk).append fun m' h' => ?_
  · exact (mem_lowPages p).mpr ((hmem _).mp hp).1
  · rw [← htables] at h'
    have hwalk : ∀ p ∉ lowPages, (vmmUnmapIdentity s).tables.walk p = s.tables.walk p := by
      intro p hp
      rw [htables]
      exact Paging.Tables.walk_overwrite fun hi => hp ((mem_lowPages p).mpr ((hmem _).mp hi).1)
    refine h'.always_single (fun m'' h'' => h''.reload) fun m'' h'' => ?_
    rcases h'' with h'' | h''
    · exact undisturbed_of_at h'' subset_rfl hwalk
    · exact undisturbed_of_at h'' (Set.empty_subset _) hwalk

end Always

/-! ### Runs -/

/-- The pages that a call can leave stale until it returns. -/
def VmmCall.pages : VmmCall → Set (BitVec 20)
  | .map virt _ _ _ => {pageOf virt}
  | .unmap virt => {pageOf virt}
  | .unmapIdentity => lowPages

/-- The processor can rely on tables that show an address space. -/
theorem VmmState.Shows.readable {s : VmmState Frames} {space : AddressSpace} (h : s.Shows space) :
    s.Readable FramesInUse := by
  obtain ⟨flags, hgrants⟩ := h.grants
  exact ⟨hgrants.wellFormed, h.openDirectory, hgrants.covered⟩

/-- One call disturbs its own pages only, and leaves none stale. -/
theorem vmmCall_always {s : VmmState Frames} {space : AddressSpace} (h : s.Shows space) (hready : s.ready)
    (call : VmmCall) {m : Mmu} (hm : m.At s.tables ∅) :
    m.Always (vmmCallEvents s call) (Undisturbed s.tables call.pages)
      (·.At (vmmCall s call).1.tables ∅) := by
  cases call with
  | map virt phys flags source =>
    obtain ⟨hwf, hopen, hcovered⟩ := h.readable
    exact vmmMapPage_always (s := { s with pmm := { s.pmm with source := source } }) framesOps_lawful
      ⟨⟨hwf.inUse, hwf.injective⟩, hopen, hcovered⟩ hready virt phys flags hm
  | unmap virt => exact vmmUnmapPage_always h.readable.wellFormed hready virt hm
  | unmapIdentity => exact vmmUnmapIdentity_always hready hm

/-- After any calls no page is stale. -/
theorem vmmCalls_always {s₀ s' : VmmState Frames} (calls : List VmmCall) {s : VmmState Frames}
    {space : AddressSpace} (h : s.Shows space) (hready : s.ready) {answers : List Int}
    (hrun : (vmmMachine s₀).runFrom s calls = some (s', answers)) {m : Mmu} (hm : m.At s.tables ∅) :
    m.Always (vmmCallsEvents s calls) (fun _ => True) (·.At s'.tables ∅) := by
  induction calls generalizing s space answers m with
  | nil =>
    obtain ⟨rfl, -⟩ := Prod.mk.inj (Option.some.inj hrun)
    exact hm.always_nil fun m' h' => ⟨trivial, h'⟩
  | cons call calls ih =>
    obtain ⟨s₁, answer, hres, hready₁, h₁⟩ := vmmCall_shows h hready call
    rw [Machine.runFrom_cons_of_step (M := vmmMachine s₀) (congrArg some hres)] at hrun
    obtain ⟨⟨s'', answers'⟩, hrest, heq⟩ := Option.map_eq_some_iff.mp hrun
    obtain ⟨rfl, -⟩ := Prod.mk.inj heq
    have hcall := vmmCall_always h hready call hm
    unfold vmmCallsEvents
    rw [hres] at hcall ⊢
    exact hcall.finally.append fun m' h' => ih h₁ hready₁ hrest h'

end Microkernel.Vmm
