import Microkernel.Lib.Paging
import Microkernel.Vmm.UserAccess

/-! # The address space of the processor

The tables that `vmm.c` builds, as the processor reads them. A right of an access needs its bit at both
levels, and a directory entry with the bit for large pages is not a table at all; the directory entries of
`vmm.c` restrict nothing, so the rights of a page are the flags of its last mapping.

* **`VmmState.tables`, `VmmState.walk_eq`** — these tables, and that the processor reads the entries as
  they are.
* **`VmmState.Shows`** — the tables show a given address space.
* **`KernelOnly`** — no page is open to ring 3, kept by every mapping without the user bit.
-/

namespace Microkernel.Vmm

open Function (update)
open Paging (pageOf offsetOf dirIndex tableIndex frameOf Translation Access)

/-! ### Pages -/

/-- The address of a page, or of a frame. -/
def pageAddr (p : BitVec 20) : U32 := (p ++ 0#12 : BitVec (20 + 12))

/-- The address of a page, as a number. -/
theorem pageAddr_toNat (p : BitVec 20) : (pageAddr p).toNat = p.toNat * 2 ^ 12 := by
  show (p ++ 0#12 : BitVec (20 + 12)).toNat = _
  rw [BitVec.toNat_append, BitVec.toNat_ofNat, Nat.zero_mod, Nat.or_zero, Nat.shiftLeft_eq]

/-- The number of the page of an address. -/
theorem pageOf_toNat (a : U32) : (pageOf a).toNat = a.toNat / 2 ^ 12 := by
  have hlt := a.isLt
  rw [pageOf, BitVec.extractLsb'_toNat, Nat.shiftRight_eq_div_pow]
  omega

/-- Pages start at multiples of the page size. -/
theorem pageAddr_aligned (p : BitVec 20) : (pageAddr p).PageAligned := by
  rw [U32.pageAligned_iff, pageAddr_toNat]
  exact Dvd.intro_left _ rfl

/-- The page of the address of a page. -/
theorem pageOf_pageAddr (p : BitVec 20) : pageOf (pageAddr p) = p := by
  apply BitVec.eq_of_toNat_eq
  rw [pageOf_toNat, pageAddr_toNat]
  omega

/-- The address of the page of an aligned address. -/
theorem pageAddr_pageOf {a : U32} (ha : a.PageAligned) : pageAddr (pageOf a) = a := by
  rw [U32.pageAligned_iff] at ha
  apply BitVec.eq_of_toNat_eq
  rw [pageAddr_toNat, pageOf_toNat]
  omega

/-- Different pages have different addresses. -/
theorem pageAddr_inj {p q : BitVec 20} : pageAddr p = pageAddr q ↔ p = q :=
  ⟨fun h => by rw [← pageOf_pageAddr p, h, pageOf_pageAddr], fun h => by rw [h]⟩

/-- An entry points to the frame whose number the processor reads. -/
theorem entryFrame_eq (e : U32) : entryFrame e = pageAddr (frameOf e) := by
  apply BitVec.eq_of_toNat_eq
  unfold entryFrame
  rw [show 0xFFF#32 = BitVec.ofNat 32 (2 ^ 12 - 1) from rfl, U32.toNat_and_not_low _ _ (by decide),
    pageAddr_toNat, show frameOf e = pageOf e from rfl, pageOf_toNat]

/-- `PD_INDEX` is the directory index that the processor uses. -/
theorem pdIndex_eq (v : U32) : pdIndex v = (dirIndex (pageOf v)).setWidth 32 := by
  apply BitVec.eq_of_toNat_eq
  rw [pdIndex_toNat, BitVec.toNat_setWidth, Paging.dirIndex_toNat, pageOf_toNat]
  omega

/-- `PT_INDEX` is the table index that the processor uses. -/
theorem ptIndex_eq (v : U32) : ptIndex v = (tableIndex (pageOf v)).setWidth 32 := by
  apply BitVec.eq_of_toNat_eq
  rw [ptIndex_toNat, BitVec.toNat_setWidth, Paging.tableIndex_toNat, pageOf_toNat]
  omega

/-- The present bit. -/
theorem isPresent_iff_present (e : U32) : IsPresent e ↔ Paging.present e = true := isPresent_iff e

/-- The user bit. -/
theorem isUser_iff_user (e : U32) : IsUser e ↔ Paging.user e = true := isUser_iff e

/-! ### The tables -/

section Tables
variable {σ : Type*} {ops : PmmOps σ} {InUse : σ → U32 → Prop} {s s' : VmmState σ}

/-- The tables as the processor reads them: a page table lies in the frame that the code reaches through
the direct map. -/
def VmmState.tables (s : VmmState σ) : Paging.Tables where
  dir i := s.pd (i.setWidth 32)
  table f k := s.table (physToVirt (pageAddr f)) (k.setWidth 32)

/-- A directory entry restricts no right of the pages under it, ring 3 apart, and maps no large page. -/
def OpenEntry (e : U32) : Prop := IsPresent e → Paging.writable e = true ∧ Paging.large e = false

/-- All entries of the directory are such. -/
def VmmState.OpenDirectory (s : VmmState σ) : Prop := ∀ i, OpenEntry (s.pd i)

/-- What an entry says about its page. -/
def translationOf (e : U32) : Translation := ⟨frameOf e, Paging.writable e, Paging.user e⟩

/-- **The processor reads the entries**: nothing above them restricts them. -/
theorem VmmState.walk_eq (hopen : s.OpenDirectory) (hcovered : s.UserCovered) (p : BitVec 20) :
    s.tables.walk p = (s.entry (pageAddr p)).map translationOf := by
  have hpd : s.tables.dir (dirIndex p) = s.pd (pdIndex (pageAddr p)) := by
    rw [pdIndex_eq, pageOf_pageAddr]
    rfl
  unfold Paging.Tables.walk Paging.Tables.under
  rw [hpd]
  by_cases hpde : IsPresent (s.pd (pdIndex (pageAddr p)))
  · obtain ⟨hwrite, hlarge⟩ := hopen _ hpde
    rw [if_neg (by simpa using (isPresent_iff_present _).mp hpde), if_neg (by simp [hlarge])]
    have hentry : s.tables.table (frameOf (s.pd (pdIndex (pageAddr p)))) (tableIndex p) =
        s.table (physToVirt (entryFrame (s.pd (pdIndex (pageAddr p))))) (ptIndex (pageAddr p)) := by
      rw [ptIndex_eq, pageOf_pageAddr, entryFrame_eq]
      rfl
    have heq := VmmState.entry_of_present hpde
    rw [hentry]
    generalize s.table (physToVirt (entryFrame (s.pd (pdIndex (pageAddr p))))) (ptIndex (pageAddr p)) = e
      at heq ⊢
    rw [heq]
    unfold Paging.translation presentEntry
    by_cases he : IsPresent e
    · -- an entry with the user bit lies under a directory entry with the user bit
      have huser : (Paging.user (s.pd (pdIndex (pageAddr p))) && Paging.user e) = Paging.user e := by
        cases hu : Paging.user e with
        | false => exact Bool.and_false _
        | true =>
          have hcov := hcovered _ (pageAddr_aligned p)
            ⟨e, by rw [heq]; exact if_pos he, (isUser_iff_user e).mpr hu⟩
          rw [(isUser_iff_user _).mp hcov, Bool.true_and]
      rw [if_pos ((isPresent_iff_present e).mp he), if_pos he, hwrite, huser, Bool.true_and]
      rfl
    · rw [if_neg fun h => he ((isPresent_iff_present e).mpr h), if_neg he]
      rfl
  · have hnone : s.entry (pageAddr p) = none :=
      TwoLevelMap.lookup_of_none (VmmState.dir_of_not_present hpde) _
    rw [if_pos (by simpa [isPresent_iff_present] using hpde), hnone, Option.map_none]

/-! ### The directory -/

section Directory
variable {C : U32 → Prop} (htable : ∀ f : U32, f.PageAligned → C (f ||| ptePresent ||| pteWritable))
  (h : ∀ i, C (s.pd i))
include htable h

/-- `vmm_ensure_page_table` writes the entry of a new table, if anything. -/
theorem vmmEnsurePageTable_directory (hops : ops.Lawful InUse) (j i : U32) :
    C ((vmmEnsurePageTable ops j s).1.pd i) := by
  unfold vmmEnsurePageTable
  have hfresh := hops.fresh s.pmm
  dsimp only
  split
  · exact h i
  · split
    · exact h i
    · rename_i hnull
      simp only [Function.update_apply]
      split
      · exact htable _ (hfresh hnull).1
      · exact h i

/-- `vmm_map_page` writes the entry of a new table and the user bit, if anything. -/
theorem vmmMapPage_directory (hops : ops.Lawful InUse) (huser : ∀ e, C e → C (e ||| pteUser))
    (virt phys flags i : U32) : C ((vmmMapPage ops virt phys flags s).1.pd i) := by
  have hens := vmmEnsurePageTable_directory htable h hops (pdIndex virt)
  unfold vmmMapPage
  split
  · exact h i
  · dsimp only
    split
    · exact hens i
    · split
      · dsimp only
        rw [Function.update_apply]
        split
        · exact huser _ (hens _)
        · exact hens i
      · exact hens i

end Directory

/-- The entry of a new table. -/
theorem openEntry_table {f : U32} (hf : f.PageAligned) : OpenEntry (f ||| ptePresent ||| pteWritable) := by
  have hlarge : Paging.large f = false := by
    have hlow : f.getLsbD 7 = (f &&& 0xFFF#32).getLsbD 7 := by
      rw [BitVec.getLsbD_and]
      simp
    rw [Paging.large, hlow, show f &&& 0xFFF#32 = 0#32 from hf]
    rfl
  intro _
  unfold Paging.large at hlarge
  unfold Paging.writable Paging.large ptePresent pteWritable
  exact ⟨by simp, by simpa using hlarge⟩

/-- The user bit. -/
theorem OpenEntry.orUser {e : U32} (h : OpenEntry e) : OpenEntry (e ||| pteUser) := by
  intro hpresent
  rw [isPresent_or, or_iff_left (by decide)] at hpresent
  obtain ⟨hwrite, hlarge⟩ := h hpresent
  unfold Paging.writable Paging.large at *
  simp only [BitVec.getLsbD_or, hwrite, hlarge]
  decide

/-- Mapping a page adds only a writable entry for a table. -/
theorem VmmState.OpenDirectory.mapPage (h : s.OpenDirectory) (hops : ops.Lawful InUse)
    (virt phys flags : U32) : (vmmMapPage ops virt phys flags s).1.OpenDirectory :=
  vmmMapPage_directory (fun _ hf => openEntry_table hf) h hops (fun _ he => he.orUser) virt phys flags

/-- Unmapping a page leaves the directory. -/
theorem VmmState.OpenDirectory.unmapPage (h : s.OpenDirectory) (virt : U32) :
    (vmmUnmapPage virt s).OpenDirectory := by
  intro i
  unfold vmmUnmapPage
  split
  · exact h i
  · dsimp only
    split
    · exact h i
    · exact h i

/-- Taking the identity mapping away only clears entries. -/
theorem VmmState.OpenDirectory.unmapIdentity (h : s.OpenDirectory) :
    (vmmUnmapIdentity s).OpenDirectory := by
  intro i hpresent
  have htarget : entryTarget ((vmmUnmapIdentity s).pd i) = some (entryFrame ((vmmUnmapIdentity s).pd i)) :=
    if_pos hpresent
  rw [vmmUnmapIdentity_target htarget] at hpresent ⊢
  exact h i hpresent

/-! ### Entries -/

/-- The low bits of the entry that `vmm_map_page` writes are the flags. -/
theorem mapEntry_bit (phys flags : U32) {i : ℕ} (hi : i < 12) :
    (mapEntry phys flags).getLsbD i = flags.getLsbD i := by
  have hmask : (0xFFF#32).getLsbD i = true := by
    rw [show 0xFFF#32 = BitVec.ofNat 32 (2 ^ 12 - 1) from rfl, BitVec.getLsbD_ofNat,
      Nat.testBit_two_pow_sub_one]
    simp only [Bool.and_eq_true, decide_eq_true_eq]
    omega
  unfold mapEntry entryFrame
  simp only [BitVec.getLsbD_or, BitVec.getLsbD_and, BitVec.getLsbD_not, hmask, Bool.not_true,
    Bool.and_false, Bool.and_true, Bool.false_or]

/-- **What the entry says**: the frame, with the rights of the flags. -/
theorem translationOf_mapEntry {phys : U32} (hphys : phys.PageAligned) (flags : U32) :
    translationOf (mapEntry phys flags) = ⟨pageOf phys, Paging.writable flags, Paging.user flags⟩ := by
  have hframe : frameOf (mapEntry phys flags) = pageOf phys := by
    rw [← pageAddr_inj, ← entryFrame_eq, pageAddr_pageOf hphys]
    unfold mapEntry
    obtain ⟨hframe, -⟩ := entryFrame_of_aligned hphys
    rw [hframe, entryFrame_or, hframe, entryFrame_flags, BitVec.or_zero]
  unfold translationOf Paging.writable Paging.user
  rw [hframe, mapEntry_bit phys flags (by decide), mapEntry_bit phys flags (by decide)]

/-- The translation of the entry, if it is present. -/
theorem map_translationOf {phys : U32} (hphys : phys.PageAligned) (flags : U32) :
    (presentEntry (mapEntry phys flags)).map translationOf =
      if IsPresent flags then some ⟨pageOf phys, Paging.writable flags, Paging.user flags⟩ else none := by
  unfold presentEntry
  by_cases hpresent : IsPresent flags
  · rw [if_pos ((mapEntry_flags hphys flags).1.mpr hpresent), if_pos hpresent, Option.map_some,
      translationOf_mapEntry hphys]
  · rw [if_neg fun h => hpresent ((mapEntry_flags hphys flags).1.mp h), if_neg hpresent, Option.map_none]

end Tables

/-! ### Address spaces -/

/-- For each page its translation. -/
abbrev AddressSpace := BitVec 20 → Option Translation

namespace AddressSpace

/-- Map a page with the rights of the flags; an entry without the present bit maps it to nothing. -/
def map (m : AddressSpace) (virt phys flags : U32) : AddressSpace :=
  update m (pageOf virt)
    (if IsPresent flags then some ⟨pageOf phys, Paging.writable flags, Paging.user flags⟩ else none)

/-- Unmap a page. -/
def unmap (m : AddressSpace) (virt : U32) : AddressSpace := update m (pageOf virt) none

/-- Unmap everything below the high half. -/
def unmapIdentity (m : AddressSpace) : AddressSpace := fun p =>
  if pageAddr p < kernelVirtOffset then none else m p

/-- The boot map; the kernel may write everywhere, ring 3 has no access. -/
def boot (mapEnd : U32) : AddressSpace := fun p =>
  (FlatMap.boot mapEnd (pageAddr p)).map fun f => ⟨pageOf f, true, false⟩

/-- What a call and its answer mean for the address space: a rejected call changes nothing. -/
def step (m : AddressSpace) : VmmCall × Int → AddressSpace
  | (.map virt phys flags _, answer) => if answer = 0 then m.map virt phys flags else m
  | (.unmap virt, _) => if virt.PageAligned then m.unmap virt else m
  | (.unmapIdentity, _) => m.unmapIdentity

/-- The address space after calls that were answered as given. -/
def run (m : AddressSpace) (calls : List VmmCall) (answers : List Int) : AddressSpace :=
  (calls.zip answers).foldl step m

end AddressSpace

/-- The tables show the address space. -/
structure VmmState.Shows (s : VmmState Frames) (m : AddressSpace) : Prop where
  grants : ∃ flags, s.Grants flags
  openDirectory : s.OpenDirectory
  entries : ∀ v, v.PageAligned → (s.entry v).map translationOf = m (pageOf v)

/-- **The processor reads the address space from the tables.** -/
theorem VmmState.Shows.walk {s : VmmState Frames} {m : AddressSpace} (h : s.Shows m) (p : BitVec 20) :
    s.tables.walk p = m p := by
  obtain ⟨flags, hgrants⟩ := h.grants
  rw [VmmState.walk_eq h.openDirectory hgrants.covered, h.entries _ (pageAddr_aligned p), pageOf_pageAddr]

/-- One call makes its change to the address space. -/
theorem vmmCall_shows {s : VmmState Frames} {m : AddressSpace} (h : s.Shows m) (hready : s.ready)
    (call : VmmCall) :
    ∃ s' answer, vmmCall s call = (s', answer) ∧ s'.ready ∧ s'.Shows (m.step (call, answer)) := by
  obtain ⟨flags, hgrants⟩ := h.grants
  obtain ⟨s', answer, hres, hready', hgrants'⟩ := vmmCall_grants hgrants call
  refine ⟨s', answer, hres, hready' ▸ hready, ⟨_, hgrants'⟩, ?_, ?_⟩
  · cases call with
    | map virt phys flags source =>
      have hopen := VmmState.OpenDirectory.mapPage
        (s := { s with pmm := { s.pmm with source := source } }) h.openDirectory framesOps_lawful
        virt phys flags
      exact (congrArg (fun r => VmmState.OpenDirectory r.1) hres).mp hopen
    | unmap virt =>
      obtain ⟨rfl, -⟩ := Prod.mk.inj hres
      exact h.openDirectory.unmapPage virt
    | unmapIdentity =>
      obtain ⟨rfl, -⟩ := Prod.mk.inj hres
      exact h.openDirectory.unmapIdentity
  · intro v hv
    cases call with
    | map virt phys flags source =>
      obtain ⟨s'', r, hres', -, -, hcase⟩ :=
        vmmMapPage_entry (s := { s with pmm := { s.pmm with source := source } }) framesOps_lawful
          ⟨hgrants.wellFormed.inUse, hgrants.wellFormed.injective⟩ virt phys flags
      obtain ⟨rfl, rfl⟩ := Prod.mk.inj (hres'.symm.trans hres)
      rcases hcase with ⟨rfl, hentry⟩ | ⟨rfl, hvirt, hphys, -, hentry⟩
      · rw [hentry v]
        exact h.entries v hv
      · rw [hentry v hv, AddressSpace.step, if_pos rfl, AddressSpace.map, Function.update_apply]
        have hpage : pageOf v = pageOf virt ↔ v = virt := by
          rw [← pageAddr_inj, pageAddr_pageOf hv, pageAddr_pageOf hvirt]
        by_cases hveq : v = virt
        · rw [if_pos hveq, if_pos (hpage.mpr hveq), map_translationOf hphys]
        · rw [if_neg hveq, if_neg fun hp => hveq (hpage.mp hp)]
          exact h.entries v hv
    | unmap virt =>
      obtain ⟨rfl, -⟩ := Prod.mk.inj hres
      obtain ⟨-, -, -, hentry⟩ := vmmUnmapPage_entry hgrants.wellFormed virt
      rw [hentry v hv, AddressSpace.step]
      by_cases hveq : v = virt
      · rw [if_pos hveq, if_pos (hveq ▸ hv), AddressSpace.unmap, hveq, Function.update_self]
        rfl
      · rw [if_neg hveq]
        split
        · rename_i hvirt
          have hpage : pageOf v ≠ pageOf virt := by
            rw [ne_eq, ← pageAddr_inj, pageAddr_pageOf hv, pageAddr_pageOf hvirt]
            exact hveq
          rw [AddressSpace.unmap, Function.update_of_ne hpage]
          exact h.entries v hv
        · exact h.entries v hv
    | unmapIdentity =>
      obtain ⟨rfl, -⟩ := Prod.mk.inj hres
      obtain ⟨-, hentry⟩ := vmmUnmapIdentity_entry hgrants.wellFormed
      rw [hentry hready v, AddressSpace.step, AddressSpace.unmapIdentity, pageAddr_pageOf hv]
      split
      · rfl
      · exact h.entries v hv

/-! ### Tables for the kernel alone -/

section KernelOnly
variable {σ : Type*} {ops : PmmOps σ} {InUse : σ → U32 → Prop} {s s' : VmmState σ}

/-- An entry lets the kernel write, and ring 3 out. -/
def KernelEntry (e : U32) : Prop := IsPresent e → Paging.writable e = true ∧ Paging.user e = false

/-- **Every page is the kernel's**: the directory restricts nothing, and all entries of the tables that it
points to let the kernel write, and ring 3 out. -/
structure VmmState.KernelOnly (s : VmmState σ) : Prop where
  directory : s.OpenDirectory
  entries : ∀ i k : U32, k.toNat < 1024 → IsPresent (s.pd i) →
    KernelEntry (s.table (physToVirt (entryFrame (s.pd i))) k)

/-- An empty entry. -/
theorem kernelEntry_zero : KernelEntry 0#32 := fun h => absurd h (by decide)

/-- An entry that is mapped without the user bit. -/
theorem kernelEntry_map (phys : U32) : KernelEntry (mapEntry phys (ptePresent ||| pteWritable)) := by
  intro _
  unfold Paging.writable Paging.user
  rw [mapEntry_bit _ _ (by decide), mapEntry_bit _ _ (by decide)]
  decide

/-- Other static data does not matter. -/
theorem VmmState.KernelOnly.congr (h : s.KernelOnly) (hpd : s'.pd = s.pd) (htable : s'.table = s.table) :
    s'.KernelOnly := by
  obtain ⟨pd, table, ready, nextVaddr, directMapEnd, pmm⟩ := s'
  subst hpd htable
  exact ⟨h.directory, h.entries⟩

/-- An entry for the kernel can be written into any table. -/
theorem VmmState.KernelOnly.store (h : s.KernelOnly) {e : U32} (he : KernelEntry e) (pt k : U32) :
    VmmState.KernelOnly { s with table := update s.table pt (update (s.table pt) k e) } := by
  refine ⟨h.directory, fun i j hj hpresent => ?_⟩
  have hold := h.entries i j hj hpresent
  dsimp only
  generalize physToVirt (entryFrame (s.pd i)) = t at hold ⊢
  by_cases ht : t = pt
  · rw [ht] at hold ⊢
    rw [Function.update_self, Function.update_apply]
    split
    exacts [he, hold]
  · rw [Function.update_of_ne ht]
    exact hold

/-- A cleared table can be added. -/
theorem VmmState.KernelOnly.addTable (h : s.KernelOnly) {f : U32} (hf : f.PageAligned) (j : U32) :
    VmmState.KernelOnly { s with
      table := update s.table (physToVirt f) (memzeroPage (s.table (physToVirt f)) 1024)
      pd := update s.pd j (f ||| ptePresent ||| pteWritable) } := by
  refine ⟨fun i => ?_, fun i k hk hpresent => ?_⟩
  · dsimp only
    rw [Function.update_apply]
    split
    exacts [openEntry_table hf, h.directory i]
  dsimp only at hpresent ⊢
  by_cases hij : i = j
  · obtain ⟨hframe, -⟩ := entryFrame_of_aligned hf
    rw [hij, Function.update_self, entryFrame_or, entryFrame_or, hframe,
      show entryFrame ptePresent = 0#32 from rfl, show entryFrame pteWritable = 0#32 from rfl,
      BitVec.or_zero, BitVec.or_zero, Function.update_self, memzeroPage_eq _ (by decide), if_pos hk]
    exact kernelEntry_zero
  · rw [Function.update_of_ne hij] at hpresent ⊢
    have hold := h.entries i k hk hpresent
    generalize physToVirt (entryFrame (s.pd i)) = t at hold ⊢
    by_cases ht : t = physToVirt f
    · rw [ht, Function.update_self, memzeroPage_eq _ (by decide), if_pos hk]
      exact kernelEntry_zero
    · rw [Function.update_of_ne ht]
      exact hold

/-- `vmm_ensure_page_table` clears the table that it adds. -/
theorem VmmState.KernelOnly.ensurePageTable (h : s.KernelOnly) (hops : ops.Lawful InUse) (j : U32) :
    (vmmEnsurePageTable ops j s).1.KernelOnly := by
  have hfresh := hops.fresh s.pmm
  unfold vmmEnsurePageTable
  dsimp only
  split
  · exact h
  · split
    · exact h.congr rfl rfl
    · rename_i hnull
      have hadd := h.addTable (hfresh hnull).1 j
      exact hadd.congr rfl rfl

/-- **Mapping a page for the kernel.** -/
theorem VmmState.KernelOnly.mapPage (h : s.KernelOnly) (hops : ops.Lawful InUse) (virt phys : U32) :
    (vmmMapPage ops virt phys (ptePresent ||| pteWritable) s).1.KernelOnly := by
  have hens := h.ensurePageTable hops (pdIndex virt)
  unfold vmmMapPage
  split
  · exact h
  · -- the flags have no user bit
    dsimp only
    split
    · exact hens
    · exact hens.store (kernelEntry_map phys) _ _

/-- **Unmapping a page.** -/
theorem VmmState.KernelOnly.unmapPage (h : s.KernelOnly) (virt : U32) :
    (vmmUnmapPage virt s).KernelOnly := by
  unfold vmmUnmapPage
  split
  · exact h
  · dsimp only
    split
    · exact h
    · exact h.store kernelEntry_zero _ _

/-- The entries of pages. -/
theorem VmmState.KernelOnly.entry (h : s.KernelOnly) {v e : U32} (he : s.entry v = some e) :
    Paging.writable e = true ∧ Paging.user e = false := by
  have hpde := VmmState.present_of_entry he
  rw [VmmState.entry_of_present hpde] at he
  obtain ⟨hpresent, rfl⟩ := presentEntry_eq_some.mp he
  refine h.entries _ _ ?_ hpde hpresent
  rw [ptIndex_toNat]
  omega

/-- A kernel-only space has no page that ring 3 can reach. -/
theorem VmmState.KernelOnly.not_userEntry (h : s.KernelOnly) (v : U32) : ¬ s.UserEntry v := by
  rintro ⟨e, he, hu⟩
  have hclosed := (h.entry he).2
  rw [(isUser_iff_user e).mp hu] at hclosed
  exact absurd hclosed (by decide)

/-- **The processor finds the frame of each page**, for the kernel to read and write. -/
theorem VmmState.KernelOnly.walk (h : s.KernelOnly) (p : BitVec 20) :
    s.tables.walk p = (s.translate (pageAddr p)).map fun f => ⟨pageOf f, true, false⟩ := by
  rw [VmmState.walk_eq h.directory fun v _ hu => absurd hu (h.not_userEntry v), VmmState.translate_eq,
    Option.map_map]
  cases he : s.entry (pageAddr p) with
  | none => rfl
  | some e =>
    obtain ⟨hwrite, hclosed⟩ := h.entry he
    rw [Option.map_some, Option.map_some, translationOf, hwrite, hclosed, Function.comp_apply, entryFrame_eq,
      pageOf_pageAddr]

/-- The mapping loop of `vmm_init` maps no page for ring 3. -/
theorem vmmInitLoop_kernelOnly {mapEnd : U32} (n : ℕ) (hops : ops.Lawful InUse) {ok : Bool}
    (h : s.KernelOnly) (hres : vmmInitLoop ops mapEnd n 0#32 s = some (s', ok)) : s'.KernelOnly :=
  vmmInitLoop_invariant (fun _ phys virt h _ _ _ => h.mapPage hops virt phys) n (by decide) h hres

/-- The cleared directory has no tables. -/
theorem vmmCleared_kernelOnly (table : U32 → U32 → U32) (pmm : σ) : (vmmCleared table pmm).KernelOnly := by
  have hnone : ∀ i, ¬ IsPresent ((vmmCleared table pmm).pd i) := by
    intro i
    rw [vmmCleared_pd]
    decide
  exact ⟨fun i hpresent => absurd hpresent (hnone i), fun i _ _ hpresent => absurd hpresent (hnone i)⟩

/-- **`vmm_init`** maps no page for ring 3. -/
theorem vmmInit_kernelOnly {kernelEnd : U32} {table : U32 → U32 → U32} {pmm : σ} (hops : ops.Lawful InUse)
    (hinit : vmmInit ops kernelEnd (vmmStatic table pmm) = some s) : s.KernelOnly := by
  obtain ⟨s₁, ok, hloop, hcase⟩ := vmmInit_cases hinit
  have h₁ := vmmInitLoop_kernelOnly _ hops (vmmCleared_kernelOnly table pmm) hloop
  rcases hcase with ⟨-, rfl⟩ | ⟨-, rfl⟩
  exacts [h₁, h₁.congr rfl rfl]

end KernelOnly

/-! ### After `vmm_init` -/

/-- **`vmm_init`**, when it had enough frames, shows the boot map. -/
theorem vmmInit_shows {kernelEnd : U32} {table : U32 → U32 → U32} {p : Frames} {s : VmmState Frames}
    (hinit : vmmInit framesOps kernelEnd (vmmStatic table p) = some s) (hready : s.ready) :
    s.Shows (AddressSpace.boot (vmmMapEnd framesOps kernelEnd p)) := by
  have hkernel := vmmInit_kernelOnly framesOps_lawful hinit
  obtain ⟨s', hinit', hwf, hboot⟩ := vmmInit_spec framesOps_lawful kernelEnd table p
  obtain rfl := Option.some.inj (hinit.symm.trans hinit')
  have huser := hkernel.not_userEntry
  refine ⟨⟨fun _ => none, hwf, fun v _ hu => absurd hu (huser v), fun v _ => ?_⟩, hkernel.directory,
    fun v hv => ?_⟩
  · rw [iff_false_intro (huser v), false_iff]
    rintro ⟨flags, hf, -⟩
    exact absurd hf (by simp)
  · -- the frames are those of the boot map, the rights those of every entry
    have hframe := hboot hready v hv
    rw [VmmState.translate_eq] at hframe
    unfold AddressSpace.boot
    rw [pageAddr_pageOf hv, ← hframe]
    cases he : s.entry v with
    | none => rfl
    | some e =>
      obtain ⟨hwrite, hclosed⟩ := hkernel.entry he
      rw [Option.map_some, Option.map_some, Option.map_some, entryFrame_eq, pageOf_pageAddr, translationOf,
        hwrite, hclosed]

/-- The address space after any calls. -/
theorem vmmMachine_shows {s₀ : VmmState Frames} {m : AddressSpace} (h : s₀.Shows m) (hready : s₀.ready)
    (calls : List VmmCall) :
    ∃ s answers, (vmmMachine s₀).run calls = some (s, answers) ∧ s.ready ∧
      s.Shows (m.run calls answers) := by
  obtain ⟨s, answers, hrun, hready', h'⟩ := Machine.runFrom_trace (M := vmmMachine s₀)
    (R := fun s m => s.ready ∧ s.Shows m) AddressSpace.step (fun s m call ⟨hready, h⟩ => by
      obtain ⟨s', answer, hres, hready', h'⟩ := vmmCall_shows h hready call
      exact ⟨s', answer, congrArg some hres, hready', h'⟩)
    calls s₀ m ⟨hready, h⟩
  exact ⟨s, answers, hrun, hready', h'⟩

/-- A ring 0 read reaches the frame that the code gives for the page. -/
theorem VmmState.Shows.read {s : VmmState Frames} {m : AddressSpace} (h : s.Shows m) (hready : s.ready)
    (wp : Bool) {a : Access} (hwrite : a.write = false) (huser : a.user = false) :
    a.outcome wp (s.tables.walk (pageOf a.address)) =
      (vmmGetPhysical (pageAddr (pageOf a.address)) s).elim (.faults 0#32) fun f =>
        .reaches (f + (offsetOf a.address).setWidth 32) := by
  have hentry := h.entries _ (pageAddr_aligned (pageOf a.address))
  rw [h.walk, vmmGetPhysical_eq, if_pos ⟨hready, pageAddr_aligned _⟩, VmmState.translate_eq]
  rw [pageOf_pageAddr] at hentry
  rw [← hentry]
  cases s.entry (pageAddr (pageOf a.address)) with
  | none =>
    show Paging.Outcome.faults (Paging.errorCode false a) = .faults 0#32
    unfold Paging.errorCode
    simp [hwrite, huser]
  | some e =>
    have hallows : (translationOf e).allows wp a = true := by
      simp [Translation.allows, hwrite, huser]
    have hphys : ((frameOf e ++ offsetOf a.address : BitVec (20 + 12)) : U32) =
        entryFrame e + (offsetOf a.address).setWidth 32 := by
      rw [entryFrame_eq]
      apply BitVec.eq_of_toNat_eq
      have hlt := (frameOf e).isLt
      have hoff := (offsetOf a.address).isLt
      show (frameOf e ++ offsetOf a.address : BitVec (20 + 12)).toNat = _
      rw [BitVec.toNat_append, BitVec.toNat_add, pageAddr_toNat, BitVec.toNat_setWidth,
        ← Nat.shiftLeft_add_eq_or_of_lt hoff, Nat.shiftLeft_eq]
      omega
    show (if (translationOf e).allows wp a then _ else _) = _
    rw [if_pos hallows, Option.map_some, Option.elim_some, ← hphys]
    rfl

end Microkernel.Vmm
