import Microkernel.Vmm.PagedCalls

/-! # The page directory of the boot code

`boot.asm` runs before there is any page table: it fills one directory with large pages, for the first
1 GiB at its own addresses and again in the high half, and switches paging on. `vmm_init` replaces the
directory while the kernel runs under it, and `vmm_unmap_identity` later takes its lower part away.

* **`repStosd`, `fillPse`** — the two loops of the assembly text, with the wrap-around of their registers.
* **`startBootPd_spec`** — the directory that they leave.
* **`directory_replaced`** — no access of the kernel moves when paging is switched on, when `CR3` is
  loaded, or when the lower part goes.
-/

namespace Microkernel.Vmm

open Function (update)
open Paging (pageOf dirIndex tableIndex frameOf Translation)

/-! ### The boot code -/

/-- `rep stosd` into `boot_pd`: `ecx` entries from the entry `edi` on become `eax`. -/
def repStosd (eax : U32) : ℕ → U32 → (U32 → U32) → U32 → U32
  | 0, _, pd => pd
  | ecx + 1, edi, pd => repStosd eax ecx (edi + 1#32) (update pd edi eax)

/-- `.fill_pse`, with the rounds it may take; `none` when they do not suffice. -/
def fillPse : ℕ → U32 → (U32 → U32) → Option (U32 → U32)
  | 0, _, _ => none
  | n + 1, ecx, pd =>
      let eax := ecx
      let eax := eax <<< 22
      let eax := eax ||| 0x83#32
      let pd := update pd ecx eax
      let pd := update pd (768#32 + ecx) eax
      let ecx := ecx + 1#32
      if ecx < 256#32 then fillPse n ecx pd else some pd

/-- `_start` up to the load of `CR3`: the entries of `boot_pd`. -/
def startBootPd (pd : U32 → U32) : Option (U32 → U32) := fillPse 256 0#32 (repStosd 0#32 1024 0#32 pd)

/-! ### What it leaves -/

/-- The entry of a large page. -/
def largeEntry (i : U32) : U32 := (i <<< 22) ||| 0x83#32

/-- `rep stosd` clears the words from `edi` on and leaves the others. -/
theorem repStosd_eq (n : ℕ) {edi : U32} (hn : edi.toNat + n < 2 ^ 32) (pd : U32 → U32) (i : U32) :
    repStosd 0#32 n edi pd i = if edi.toNat ≤ i.toNat ∧ i.toNat < edi.toNat + n then 0#32 else pd i := by
  induction n generalizing edi pd with
  | zero =>
    rw [repStosd, if_neg]
    omega
  | succ n ih =>
    have hnext : (edi + 1#32).toNat = edi.toNat + 1 := by bv_omega
    rw [repStosd, ih (by omega), hnext]
    by_cases hi : i = edi
    · subst hi
      rw [Function.update_self, if_neg (by omega), if_pos (by omega)]
    · have hne : i.toNat ≠ edi.toNat := fun h => hi (BitVec.eq_of_toNat_eq h)
      rw [Function.update_of_ne hi]
      congr 1
      exact propext (by omega)

/-- **The loop of the boot code** ends and leaves the large pages from `ecx` on, twice. -/
theorem fillPse_spec (n : ℕ) {ecx : U32} (hlt : ecx.toNat < 256) (hn : 256 ≤ ecx.toNat + n)
    (pd : U32 → U32) :
    ∃ pd', fillPse n ecx pd = some pd' ∧ ∀ i, pd' i =
      if ecx.toNat ≤ i.toNat ∧ i.toNat < 256 then largeEntry i
      else if 768 + ecx.toNat ≤ i.toNat ∧ i.toNat < 1024 then largeEntry (i - 768#32)
      else pd i := by
  induction n generalizing ecx pd with
  | zero => omega
  | succ n ih =>
    have hnext : (ecx + 1#32).toNat = ecx.toNat + 1 := by bv_omega
    have hhigh : (768#32 + ecx).toNat = 768 + ecx.toNat := by bv_omega
    have hsub : 768#32 + ecx - 768#32 = ecx := by rw [BitVec.add_comm, BitVec.add_sub_cancel]
    -- the two entries of this round
    have hround : ∀ i, update (update pd ecx (largeEntry ecx)) (768#32 + ecx) (largeEntry ecx) i =
        if i.toNat = ecx.toNat then largeEntry i
        else if i.toNat = 768 + ecx.toNat then largeEntry (i - 768#32) else pd i := by
      intro i
      by_cases h₁ : i.toNat = 768 + ecx.toNat
      · have hne : ¬ i.toNat = ecx.toNat := by omega
        rw [if_neg hne, if_pos h₁, BitVec.eq_of_toNat_eq (h₁.trans hhigh.symm), Function.update_self, hsub]
      · have hne : i ≠ 768#32 + ecx := fun h => h₁ (h ▸ hhigh)
        rw [Function.update_of_ne hne, if_neg h₁]
        by_cases h₂ : i.toNat = ecx.toNat
        · obtain rfl : i = ecx := BitVec.eq_of_toNat_eq h₂
          rw [Function.update_self, if_pos rfl]
        · have hne' : i ≠ ecx := fun h => h₂ (h ▸ rfl)
          rw [Function.update_of_ne hne', if_neg h₂]
    rw [fillPse]
    change ∃ pd', (if ecx + 1#32 < 256#32 then
      fillPse n (ecx + 1#32) (update (update pd ecx (largeEntry ecx)) (768#32 + ecx) (largeEntry ecx))
        else some (update (update pd ecx (largeEntry ecx)) (768#32 + ecx) (largeEntry ecx))) = some pd' ∧ _
    by_cases hmore : ecx.toNat + 1 < 256
    · have hlt' : (ecx + 1#32).toNat < 256 := by omega
      have hn' : 256 ≤ (ecx + 1#32).toNat + n := by omega
      obtain ⟨pd', hres, hpd'⟩ := ih hlt' hn'
        (update (update pd ecx (largeEntry ecx)) (768#32 + ecx) (largeEntry ecx))
      refine ⟨pd', ?_, fun i => ?_⟩
      · rw [if_pos (by rw [BitVec.lt_def, hnext]; exact hmore)]
        exact hres
      · rw [hpd', hround, hnext]
        split_ifs <;> first | omega | rfl
    · refine ⟨_, if_neg (by rw [BitVec.lt_def, hnext]; exact hmore), fun i => ?_⟩
      rw [hround]
      split_ifs <;> first | omega | rfl

/-- **The boot directory**: large pages for the first 1 GiB, the same in the high half, nothing else. -/
theorem startBootPd_spec (pd : U32 → U32) :
    ∃ bootPd, startBootPd pd = some bootPd ∧ ∀ i : BitVec 10, bootPd (i.setWidth 32) =
      if i.toNat < 256 then largeEntry (i.setWidth 32)
      else if 768 ≤ i.toNat then largeEntry (i.setWidth 32 - 768#32)
      else 0#32 := by
  have hfirst : (0#32).toNat < 256 := by decide
  have hrounds : 256 ≤ (0#32).toNat + 256 := by decide
  obtain ⟨bootPd, hres, hentry⟩ := fillPse_spec 256 hfirst hrounds (repStosd 0#32 1024 0#32 pd)
  refine ⟨bootPd, hres, fun i => ?_⟩
  have hi : (i.setWidth 32).toNat = i.toNat := by
    rw [BitVec.toNat_setWidth]
    omega
  have hlt := i.isLt
  rw [hentry, repStosd_eq 1024 (by decide), hi]
  simp only [BitVec.toNat_ofNat, Nat.zero_mod, Nat.zero_le, true_and, Nat.zero_add, Nat.add_zero]
  split_ifs <;> first | omega | rfl

/-! ### What the processor reads there -/

/-- The tables that `CR3` points to before `vmm_init`: the boot directory over any memory. -/
def bootTables (bootPd : U32 → U32) (table : BitVec 20 → BitVec 10 → BitVec 32) : Paging.Tables :=
  ⟨fun i => bootPd (i.setWidth 32), table⟩

/-- A large page: the kernel may write there, ring 3 has no access. -/
theorem under_largeEntry (t : Paging.Tables) (i : U32) (p : BitVec 20) :
    t.under (largeEntry i) p = some ⟨(i.setWidth 10 ++ tableIndex p : BitVec (10 + 10)), true, false⟩ := by
  have hflags : Paging.present (largeEntry i) = true ∧ Paging.writable (largeEntry i) = true ∧
      Paging.user (largeEntry i) = false ∧ Paging.large (largeEntry i) = true := by
    unfold Paging.present Paging.writable Paging.user Paging.large largeEntry
    simp
  have hbase : (largeEntry i).extractLsb' 22 10 = i.setWidth 10 := by
    ext k hk
    have hzero : (0x83#32).getLsbD (22 + k) = false := by
      have hlt : 0x83 < 2 ^ (22 + k) := by
        calc 0x83 < 2 ^ 22 := by decide
          _ ≤ 2 ^ (22 + k) := Nat.pow_le_pow_right (by decide) (by omega)
      rw [BitVec.getLsbD_ofNat, Nat.testBit_lt_two_pow hlt, Bool.and_false]
    have hk' : 22 + k < 32 := by omega
    unfold largeEntry
    rw [BitVec.getElem_extractLsb', BitVec.getLsbD_or, hzero, Bool.or_false, BitVec.getLsbD_shiftLeft,
      BitVec.getElem_setWidth, Nat.add_sub_cancel_left]
    simp [hk']
  obtain ⟨hpresent, hwrite, huser, hlarge⟩ := hflags
  unfold Paging.Tables.under
  rw [if_neg (by simp [hpresent]), if_pos hlarge, hbase, hwrite, huser]

/-- A page from its indices. -/
theorem append_index {x : BitVec 10} {p q : BitVec 20} (hd : x.toNat = (dirIndex q).toNat)
    (ht : tableIndex p = tableIndex q) : (x ++ tableIndex p : BitVec (10 + 10)) = q := by
  apply BitVec.eq_of_toNat_eq
  have hlt := (tableIndex p).isLt
  rw [BitVec.toNat_append, ← Nat.shiftLeft_add_eq_or_of_lt hlt, Nat.shiftLeft_eq, hd, ht,
    Paging.dirIndex_toNat, Paging.tableIndex_toNat]
  omega

/-- **What the boot directory maps**: every page of the first 1 GiB to itself, and the same frames again
in the high half. -/
theorem walk_bootTables {pd bootPd : U32 → U32} (hboot : startBootPd pd = some bootPd)
    (table : BitVec 20 → BitVec 10 → BitVec 32) (p : BitVec 20) :
    (bootTables bootPd table).walk p =
      if p.toNat < 2 ^ 18 then some ⟨p, true, false⟩
      else if 0xC0000 ≤ p.toNat then some ⟨p - 0xC0000#20, true, false⟩
      else none := by
  obtain ⟨bootPd', hres, hentry⟩ := startBootPd_spec pd
  obtain rfl := Option.some.inj (hres.symm.trans hboot)
  have hd := Paging.dirIndex_toNat p
  have hi : ((dirIndex p).setWidth 32).toNat = (dirIndex p).toNat := by
    rw [BitVec.toNat_setWidth]
    omega
  have hlt := p.isLt
  unfold Paging.Tables.walk
  rw [show (bootTables bootPd' table).dir (dirIndex p) = _ from hentry (dirIndex p)]
  by_cases hlow : p.toNat < 2 ^ 18
  · have hframe : (((dirIndex p).setWidth 32).setWidth 10 ++ tableIndex p : BitVec (10 + 10)) = p := by
      refine append_index ?_ rfl
      rw [BitVec.toNat_setWidth, hi]
      omega
    rw [if_pos (by omega), if_pos hlow, under_largeEntry, hframe]
  · rw [if_neg (by omega), if_neg hlow]
    by_cases hhigh : 0xC0000 ≤ p.toNat
    · have hsub : (p - 0xC0000#20).toNat = p.toNat - 0xC0000 := by bv_omega
      have hsub' : ((dirIndex p).setWidth 32 - 768#32).toNat = (dirIndex p).toNat - 768 := by bv_omega
      have hframe : (((dirIndex p).setWidth 32 - 768#32).setWidth 10 ++ tableIndex p : BitVec (10 + 10)) =
          p - 0xC0000#20 := by
        refine append_index ?_ ?_
        · rw [BitVec.toNat_setWidth, hsub', Paging.dirIndex_toNat (p - 0xC0000#20), hsub]
          omega
        · apply BitVec.eq_of_toNat_eq
          rw [Paging.tableIndex_toNat, Paging.tableIndex_toNat, hsub]
          omega
      rw [if_pos (by omega), if_pos hhigh, under_largeEntry, hframe]
    · rw [if_neg (by omega), if_neg hhigh]
      rfl

/-! ### Replacing it -/

/-- The boot map of `vmm_init` is a part of the boot directory's: the frames below `mapEnd`. -/
theorem boot_eq_filter {pd bootPd : U32 → U32} (hboot : startBootPd pd = some bootPd)
    (table : BitVec 20 → BitVec 10 → BitVec 32) {mapEnd : U32} (hend : mapEnd.toNat ≤ 2 ^ 30)
    (p : BitVec 20) :
    AddressSpace.boot mapEnd p =
      ((bootTables bootPd table).walk p).filter fun t => pageAddr t.frame < mapEnd := by
  have hp := pageAddr_toNat p
  have hoffset : kernelVirtOffset.toNat = 0xC0000 * 2 ^ 12 := by decide
  have hlt := p.isLt
  rw [walk_bootTables hboot]
  unfold AddressSpace.boot FlatMap.boot
  by_cases hlow : p.toNat < 2 ^ 18
  · have hnot : ¬ (kernelVirtOffset ≤ pageAddr p ∧ pageAddr p - kernelVirtOffset < mapEnd) := by
      rw [BitVec.le_def]
      omega
    rw [if_pos hlow, if_neg hnot]
    by_cases hmap : pageAddr p < mapEnd
    · rw [if_pos hmap, Option.map_some, pageOf_pageAddr, Option.filter_some_pos (by simpa using hmap)]
    · rw [if_neg hmap, Option.map_none, Option.filter_some_neg (by simpa using hmap)]
  · have hnot : ¬ pageAddr p < mapEnd := by
      rw [BitVec.lt_def]
      omega
    rw [if_neg hlow, if_neg hnot]
    by_cases hhigh : 0xC0000 ≤ p.toNat
    · have hle : kernelVirtOffset ≤ pageAddr p := by
        rw [BitVec.le_def]
        omega
      have hframe : pageAddr p - kernelVirtOffset = pageAddr (p - 0xC0000#20) := by
        have hsub : (p - 0xC0000#20).toNat = p.toNat - 0xC0000 := by bv_omega
        apply BitVec.eq_of_toNat_eq
        rw [BitVec.toNat_sub_of_le hle, pageAddr_toNat, pageAddr_toNat, hsub, hoffset]
        omega
      rw [if_pos hhigh, hframe]
      by_cases hmap : pageAddr (p - 0xC0000#20) < mapEnd
      · rw [if_pos ⟨hle, hmap⟩, Option.map_some, pageOf_pageAddr,
          Option.filter_some_pos (by simpa using hmap)]
      · rw [if_neg fun h => hmap h.2, Option.map_none, Option.filter_some_neg (by simpa using hmap)]
    · have hnle : ¬ kernelVirtOffset ≤ pageAddr p := by
        rw [BitVec.le_def]
        omega
      rw [if_neg hhigh, if_neg (fun h => hnle h.1)]
      rfl

/-- Until then a page shows the frame that the boot directory maps. -/
theorem shows_bootTables {σ : Type*} {pd bootPd : U32 → U32} (hboot : startBootPd pd = some bootPd)
    {m : PagedMemory σ} (hready : m.ready = false) (page : BitVec 20) :
    m.shows page = ((bootTables bootPd m.frames).walk page).map (·.frame) := by
  have hp := pageAddr_toNat page
  have hlt := page.isLt
  unfold PagedMemory.shows Pmm.bootTranslate
  rw [hready, walk_bootTables hboot]
  simp only [Bool.false_eq_true, if_false]
  -- the first GiB, the high half, and what is mapped nowhere
  by_cases hlow : page.toNat < 2 ^ 18
  · have hlow' : pageAddr page < 0x40000000#32 := by
      rw [BitVec.lt_def, show (0x40000000#32).toNat = 2 ^ 30 from rfl]
      omega
    rw [if_pos hlow, if_pos hlow', Option.map_some, Option.map_some, pageOf_pageAddr]
  · have hlow' : ¬ pageAddr page < 0x40000000#32 := by
      rw [BitVec.lt_def, show (0x40000000#32).toNat = 2 ^ 30 from rfl]
      omega
    rw [if_neg hlow, if_neg hlow']
    by_cases hhigh : 0xC0000 ≤ page.toNat
    · have hle : 0xC0000000#32 ≤ pageAddr page := by
        rw [BitVec.le_def, show (0xC0000000#32).toNat = 0xC0000 * 2 ^ 12 from rfl]
        omega
      have hframe : pageOf (pageAddr page - 0xC0000000#32) = page - 0xC0000#20 := by
        apply BitVec.eq_of_toNat_eq
        rw [pageOf_toNat, BitVec.toNat_sub_of_le hle, hp,
          show (0xC0000000#32).toNat = 0xC0000 * 2 ^ 12 from rfl]
        bv_omega
      rw [if_pos hhigh, if_pos hle, Option.map_some, Option.map_some, hframe]
    · have hle : ¬ 0xC0000000#32 ≤ pageAddr page := by
        rw [BitVec.le_def, show (0xC0000000#32).toNat = 0xC0000 * 2 ^ 12 from rfl]
        omega
      rw [if_neg hhigh, if_neg hle]
      rfl

/-- **Replacing the directory under the running kernel.** The loop of the boot code ends; its directory
maps the first 1 GiB to itself, so switching paging on moves no access there, and again in the high half.
Whatever the kernel image, the memory and the source of frames below 1 GiB, when `vmm_init` had enough of
them the directory that it loads translates exactly the pages that the boot directory sent below the end of
the mapped range, and each to the same frame with the same rights; `vmm_unmap_identity` then takes away
exactly those below the high half. -/
theorem directory_replaced (pd : U32 → U32) (kernelEnd : U32)
    (frames : BitVec 20 → BitVec 10 → BitVec 32) (p : Frames)
    (hlow : ∀ used, (p.source.next used).toNat < 2 ^ 30) :
    ∃ bootPd m₀, startBootPd pd = some bootPd ∧
      InMemory.vmmInit framesOps kernelEnd (.static frames p) = some m₀ ∧
      (∀ page, page.toNat < 2 ^ 18 →
        (bootTables bootPd m₀.frames).walk page = some ⟨page, true, false⟩ ∧
          (bootTables bootPd m₀.frames).walk (page + 0xC0000#20) = some ⟨page, true, false⟩) ∧
      (m₀.ready → ∀ page,
        m₀.tables.walk page = ((bootTables bootPd m₀.frames).walk page).filter
          (fun t => pageAddr t.frame < vmmMapEnd framesOps kernelEnd p) ∧
        (InMemory.vmmUnmapIdentity m₀).tables.walk page =
          if page.toNat < 0xC0000 then none else m₀.tables.walk page) := by
  obtain ⟨bootPd, hboot, -⟩ := startBootPd_spec pd
  obtain ⟨m₀, s₀, hinit, hinit', himpl, -⟩ := (@framesInit_implements True) kernelEnd frames hlow
  refine ⟨bootPd, m₀, hboot, hinit', fun page hpage => ?_, fun hready page => ?_⟩
  · have hhigh : (page + 0xC0000#20).toNat = page.toNat + 0xC0000 := by bv_omega
    rw [walk_bootTables hboot, walk_bootTables hboot, if_pos hpage, if_neg (by omega), if_pos (by omega),
      BitVec.add_sub_cancel]
    exact ⟨rfl, rfl⟩
  · have hready₀ : s₀.ready := himpl.ready ▸ hready
    have h₀ := vmmInit_shows hinit hready₀
    obtain ⟨s₁, answer, hres, -, h₁⟩ := vmmCall_shows h₀ hready₀ .unmapIdentity
    obtain ⟨rfl, -⟩ := Prod.mk.inj hres
    have hoffset : kernelVirtOffset.toNat = 0xC0000 * 2 ^ 12 := by decide
    have hlow : pageAddr page < kernelVirtOffset ↔ page.toNat < 0xC0000 := by
      rw [BitVec.lt_def, pageAddr_toNat, hoffset]
      omega
    rw [himpl.unmapIdentity.1.walk, himpl.walk, h₁.walk, h₀.walk,
      ← boot_eq_filter hboot _ (vmmMapEnd_spec framesOps kernelEnd p).2]
    refine ⟨rfl, ?_⟩
    rw [AddressSpace.step, AddressSpace.unmapIdentity]
    simp only [hlow]

/-- A machine with 32 MiB. -/
theorem directory_replaced_sample :
    ∃ bootPd m₀, startBootPd (fun _ => 0#32) = some bootPd ∧
      InMemory.vmmInit framesOps 0x200000#32 (.static (fun _ _ => 0#32) sampleSupply) = some m₀ ∧
      ∀ page, m₀.tables.walk page = ((bootTables bootPd m₀.frames).walk page).filter
          (fun t => pageAddr t.frame < vmmMapEnd framesOps 0x200000#32 sampleSupply) ∧
        (InMemory.vmmUnmapIdentity m₀).tables.walk page =
          if page.toNat < 0xC0000 then none else m₀.tables.walk page := by
  obtain ⟨bootPd, m₀, hboot, hinit, -, hwalk⟩ := directory_replaced (fun _ => 0#32) 0x200000#32
    (fun _ _ => 0#32) sampleSupply sampleSupply_low
  exact ⟨bootPd, m₀, hboot, hinit, hwalk (sampleInit hinit).1⟩

end Microkernel.Vmm
