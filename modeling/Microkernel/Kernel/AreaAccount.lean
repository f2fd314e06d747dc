import Microkernel.Kernel.FreshPages
import Microkernel.Kernel.VmaRegistry
import Microkernel.Vma.Backends

/-! # The registry accounts for what is mapped

`vmm_alloc_pages` does not look at the answer of `vma_add`, and the slab backend maps pages behind the
area that `kmain` registers for the heap. As long as a range that is returned meets no registered area
and finds room in the registry, and the heap needs no further page, every page that is mapped lies in a
registered area.

* **`RegisteredState.Accounts`** — the invariant: the registered areas are those of the start and one for
  each live range, and the heap is within those of the start.
* **`Accounts.alloc`, `Accounts.free`** — the two calls that register something keep it, when the range
  meets no registered area and there is room for one more.
* **`Accounts.registers`** — it accounts for every mapped page.
-/

namespace Microkernel.Kernel

open Heap Vma Vmm

/-! ### What the calls do to the watermark -/

section Watermark
variable {σ : Type*} {P : LawfulPmm σ}

/-- Mapping a page leaves the watermark. -/
theorem mapFreshPage_nextVaddr (v : U32) (s : VmmState σ) :
    (mapFreshPage P v s).1.nextVaddr = s.nextVaddr := by
  have hens : ∀ i (s : VmmState σ),
      (vmmEnsurePageTable P.toPmmOps i s).1.nextVaddr = s.nextVaddr := by
    intro i s
    unfold vmmEnsurePageTable
    split
    dsimp only
    split
    · rfl
    · split <;> rfl
  have hmap : ∀ phys (s : VmmState σ), (vmmMapPage P.toPmmOps v phys
      (ptePresent ||| pteWritable) s).1.nextVaddr = s.nextVaddr := by
    intro phys s
    unfold vmmMapPage
    split
    · rfl
    · dsimp only
      split
      · exact hens _ s
      · split <;> exact hens _ s
  unfold mapFreshPage
  dsimp only
  split
  · rfl
  · split
    · exact hmap _ _
    · exact hmap _ _

/-- Mapping pages leaves the watermark. -/
theorem mapFreshPages_nextVaddr (start : U32) (n : ℕ) (i : U32) (s : VmmState σ) :
    (mapFreshPages P start n i s).1.nextVaddr = s.nextVaddr := by
  induction n generalizing i s with
  | zero => rfl
  | succ n ih =>
    unfold mapFreshPages
    dsimp only
    split
    · rw [ih, mapFreshPage_nextVaddr]
    · exact mapFreshPage_nextVaddr _ s

/-- Taking pages back leaves the watermark. -/
theorem rollbackPages_nextVaddr (start : U32) (n : ℕ) (j : U32) (s : VmmState σ) :
    (rollbackPages P start n j s).nextVaddr = s.nextVaddr := by
  induction n generalizing j s with
  | zero => rfl
  | succ n ih =>
    unfold rollbackPages
    rw [ih]
    unfold rollbackPage
    split
    · exact (vmmUnmapPage_static s _ _).1
    · rfl

/-- `vmm_free_pages` leaves the watermark. -/
theorem vmmFreePages_nextVaddr (p count : U32) (s : VmmState σ) :
    (vmmFreePages P p count s).nextVaddr = s.nextVaddr := by
  have hround : ∀ v (s : VmmState σ), (freeMappedPage P v s).nextVaddr = s.nextVaddr := by
    intro v s
    unfold freeMappedPage
    split
    · exact (vmmUnmapPage_static s v _).1
    · exact (vmmUnmapPage_static s v s.pmm).1
  have hloop : ∀ n i (s : VmmState σ), (freeMappedPages P p n i s).nextVaddr = s.nextVaddr := by
    intro n
    induction n with
    | zero => exact fun _ _ => rfl
    | succ n ih =>
      intro i s
      unfold freeMappedPages
      rw [ih, hround]
  unfold vmmFreePages
  split
  · rfl
  · exact hloop _ _ s

/-- **The watermark only grows**, by whole pages; a range that is returned begins at it, and ends at the
new one when the product of the count and the size of a page does not wrap around. -/
theorem vmmAllocPages_watermark {count p : U32} {s s' : VmmState σ}
    (hres : vmmAllocPages P count s = (s', p)) :
    (s.nextVaddr.PageAligned → s'.nextVaddr.PageAligned) ∧
      s.nextVaddr.toNat ≤ s'.nextVaddr.toNat ∧
      (p ≠ 0#32 → p = s.nextVaddr ∧ count ≠ 0#32 ∧ (count.toNat * 4096 < 2 ^ 32 →
        s'.nextVaddr.toNat = p.toNat + count.toNat * 4096)) := by
  by_cases hrej : s.Rejects count
  · rw [vmmAllocPages_rejects hrej] at hres
    obtain ⟨rfl, rfl⟩ := Prod.mk.inj hres
    exact ⟨id, le_rfl, fun hne => absurd rfl hne⟩
  have hrej' := hrej
  unfold VmmState.Rejects at hrej
  simp only [not_or, not_not] at hrej
  obtain ⟨hcount, hready, hne, htotal⟩ := hrej
  have hle := BitVec.not_lt.mp htotal
  have hend : (s.nextVaddr + count * vmmPageSize).toNat =
      s.nextVaddr.toNat + (count * vmmPageSize).toNat := by
    have hlt := s.nextVaddr.isLt
    rw [BitVec.le_def, BitVec.toNat_sub, BitVec.toNat_ofNat] at hle
    rw [BitVec.toNat_add]
    omega
  unfold vmmAllocPages at hres
  rw [if_neg (by simp [hcount, hready, hne])] at hres
  dsimp only at hres
  rw [if_neg htotal] at hres
  -- the rollback unmaps the pages but does not give back the addresses
  have hnext : s'.nextVaddr = s.nextVaddr + count * vmmPageSize ∧
      (p ≠ 0#32 → p = s.nextVaddr) := by
    split at hres
    · obtain ⟨rfl, rfl⟩ := Prod.mk.inj hres
      exact ⟨mapFreshPages_nextVaddr _ _ _ _, fun _ => rfl⟩
    · obtain ⟨rfl, rfl⟩ := Prod.mk.inj hres
      rw [rollbackPages_nextVaddr, mapFreshPages_nextVaddr]
      exact ⟨rfl, fun hne => absurd rfl hne⟩
  obtain ⟨hnext, hp⟩ := hnext
  rw [hnext, hend]
  refine ⟨fun halign => page_aligned halign count, Nat.le_add_right _ _, fun hne => ?_⟩
  rw [hp hne]
  refine ⟨rfl, hcount, fun hlt => ?_⟩
  rw [BitVec.toNat_mul, show vmmPageSize.toNat = 4096 from rfl, Nat.mod_eq_of_lt hlt]

end Watermark

/-! ### Covered pages -/

/-- The page lies in an area. -/
def AreaCovers (S : AreaSet) (v : U32) : Prop :=
  ∃ a ∈ S.areas, a.start ≤ v ∧ v.toNat + 4096 ≤ a.stop.toNat

section Covers
variable {ρ : Type} {B : VmaOps ρ} {room : ℕ} (R : RegistryRefinement B room) {S : AreaSet}
  {r : VmaRegistry ρ} {v : U32}

/-- What `vma_find` says about an address. -/
theorem vmaFind_eq (hready : r.ready = true) (h : R.Rel r.state S) (v : U32) :
    vmaFind B v r = some (S.find v) := by
  unfold vmaFind
  rw [if_neg (not_not.mpr hready)]
  exact R.find h v

/-- A page is registered exactly when an area covers it. -/
theorem registers_iff {σ : Type*} {k : RegisteredState σ ρ} (hready : k.registry.ready = true)
    (h : R.Rel k.registry.state S) : k.Registers B v ↔ AreaCovers S v := by
  unfold RegisteredState.Registers AreaCovers
  rw [vmaFind_eq R hready h]
  constructor
  · rintro ⟨a, hfind, hle, hstop⟩
    exact ⟨a, (AreaSet.find_eq_some_iff.mp (Option.some.inj hfind)).1, hle, hstop⟩
  · rintro ⟨a, ha, hle, hstop⟩
    refine ⟨a, congrArg some (AreaSet.find_eq_some_iff.mpr ⟨ha, hle, ?_⟩), hle, hstop⟩
    rw [BitVec.lt_def]
    omega

end Covers

/-! ### The invariant -/

/-- The area that `vmm_alloc_pages` registers for a range. -/
def rangeArea (name : NamePtr) (r : U32 × U32) : VmArea :=
  ⟨r.1, r.1 + r.2 * vmmPageSize, vmaRead ||| vmaWrite, name⟩

/-- **The invariant**: the areas `S` that are registered contain those of the start, `S₀`, and one for
each live range; the heap has mapped only pages that `S₀` covers; and the results of `vmm_alloc_pages` lie
below the watermark and begin where no other result and no area of `S₀` does. -/
structure RegisteredState.Accounts {σ : Type*} {ρ : Type} {B : VmaOps ρ} {room : ℕ}
    (R : RegistryRefinement B room) (name : NamePtr) (S₀ : AreaSet) (k : RegisteredState σ ρ)
    (S : AreaSet) : Prop where
  ready : k.registry.ready = true
  rel : R.Rel k.registry.state S
  boot : ∀ a ∈ S₀.areas, a ∈ S.areas
  live : ∀ r ∈ k.live, r ∈ k.kernel.pages ∧ r.1.PageAligned ∧
    r.1.toNat + r.2.toNat * 4096 < 2 ^ 32 ∧ rangeArea name r ∈ S.areas
  nodup : k.live.Nodup
  heap : ∀ v ∈ k.heapPages, AreaCovers S₀ v
  below : ∀ r ∈ k.kernel.pages, r.1.toNat < k.kernel.vmm.nextVaddr.toNat
  starts : ∀ r ∈ k.kernel.pages, ∀ a ∈ S₀.areas, a.start ≠ r.1
  distinct : k.kernel.pages.Pairwise fun r r' => r.1 ≠ r'.1
  aligned : k.kernel.vmm.nextVaddr.PageAligned

section Steps
variable {σ : Type*} {ρ : Type} {P : LawfulPmm σ} {B : VmaOps ρ} {room : ℕ}
  {R : RegistryRefinement B room} {name : NamePtr} {S₀ S : AreaSet} {k : RegisteredState σ ρ}

/-- The end of a range as a number. -/
theorem range_stop {p count : U32} (h : p.toNat + count.toNat * 4096 < 2 ^ 32) :
    (p + count * vmmPageSize).toNat = p.toNat + count.toNat * 4096 := by
  rw [BitVec.toNat_add, BitVec.toNat_mul, show vmmPageSize.toNat = 4096 from rfl]
  omega

/-- **What is mapped is registered.** -/
theorem RegisteredState.Accounts.registers (h : k.Accounts R name S₀ S) {v : U32} (hv : k.Mapped v) :
    k.Registers B v := by
  rw [registers_iff R h.ready h.rel]
  rcases hv with hv | ⟨r, hr, halign, hge, hlt⟩
  · obtain ⟨a, ha, hcover⟩ := h.heap v hv
    exact ⟨a, h.boot a ha, hcover⟩
  · obtain ⟨-, hstart, hend, harea⟩ := h.live r hr
    refine ⟨_, harea, hge, ?_⟩
    rw [U32.pageAligned_iff] at halign hstart
    show v.toNat + 4096 ≤ (r.1 + r.2 * vmmPageSize).toNat
    rw [range_stop hend]
    omega

/-- The heap maps a page that an area of the start covers, or none. -/
theorem RegisteredState.Accounts.heapStep (h : k.Accounts R name S₀ S) {kernel : KernelState σ}
    (hpages : kernel.pages = k.kernel.pages)
    (hnext : kernel.vmm.nextVaddr = k.kernel.vmm.nextVaddr) {pages : List U32}
    (hcover : ∀ v ∈ pages, AreaCovers S₀ v) :
    RegisteredState.Accounts R name S₀
      { k with kernel := kernel, heapPages := pages ++ k.heapPages } S where
  ready := h.ready
  rel := h.rel
  boot := h.boot
  live r hr := hpages ▸ h.live r hr
  nodup := h.nodup
  heap v hv := (List.mem_append.mp hv).elim (hcover v) (h.heap v)
  below r hr := by
    rw [hpages] at hr
    rw [hnext]
    exact h.below r hr
  starts r hr := by
    rw [hpages] at hr
    exact h.starts r hr
  distinct := by
    rw [hpages]
    exact h.distinct
  aligned := hnext ▸ h.aligned

/-- A request that is served hands its area to the backend. -/
theorem registeredCall_alloc (name : NamePtr) (hready : k.registry.ready = true)
    (hrel : R.Rel k.registry.state S) (hlen : S.areas.length < room) {count p : U32} {s' : VmmState σ}
    (halloc : vmmAllocPages P count k.kernel.vmm = (s', p)) (hp : p ≠ 0#32) :
    ∃ t, registeredCall P B name k (.allocPages count) = some
        (⟨⟨s', k.kernel.heap, (p, count) :: k.kernel.pages⟩, ⟨k.registry.ready, t⟩,
          (p, count) :: k.live, k.heapPages⟩, p) ∧
      R.Rel t (S.add (rangeArea name (p, count))).1 := by
  obtain ⟨t, hadd, hrel'⟩ := R.add hrel hlen p (p + count * vmmPageSize) (vmaRead ||| vmaWrite)
    name
  refine ⟨t, ?_, hrel'⟩
  have hcall : vmmAllocPagesRegistered P B name count k.kernel.vmm k.registry =
      some ((s', ⟨k.registry.ready, t⟩), p) := by
    unfold vmmAllocPagesRegistered vmaAdd
    simp only [halloc, ne_eq, hp, not_false_eq_true, hready, and_self, if_true, not_true_eq_false,
      if_false, hadd, Option.map_some]
  simp only [registeredCall, hcall, Option.map_some, if_neg hp]

/-- Of a range none of whose addresses is found, the area meets no other. -/
theorem RegisteredState.Accounts.range_misses (h : k.Accounts R name S₀ S) {p count : U32}
    (hlt : p.toNat + count.toNat * 4096 < 2 ^ 32) (hpos : 0 < count.toNat)
    (hfree : ∀ x, p ≤ x → x.toNat < p.toNat + count.toNat * 4096 →
      vmaFind B x k.registry = some none) :
    ∀ b ∈ S.areas, ¬ (rangeArea name (p, count)).Overlaps b := by
  have hstop := range_stop hlt
  intro b hb hov
  obtain ⟨x, hx, hbx⟩ := (VmArea.overlaps_iff_exists_holds (by
    show p < p + count * vmmPageSize
    rw [BitVec.lt_def, hstop]
    omega) (S.separated.1 b hb)).mp hov
  have hnone := hfree x hx.1 (by
    have hx₂ := hx.2
    show x.toNat < _
    rw [BitVec.lt_def] at hx₂
    exact hx₂.trans_eq hstop)
  rw [vmaFind_eq R h.ready h.rel] at hnone
  exact AreaSet.find_eq_none_iff.mp (Option.some.inj hnone) b hb hbx

/-- Such a range is admitted while there is room. -/
theorem range_admits {p count : U32} (hlen : S.areas.length < vmaMaxAreas) (halign : p.PageAligned)
    (hlt : p.toNat + count.toNat * 4096 < 2 ^ 32) (hpos : 0 < count.toNat)
    (hmiss : ∀ b ∈ S.areas, ¬ (rangeArea name (p, count)).Overlaps b) :
    S.Admits (rangeArea name (p, count)) := by
  refine ⟨hlen, ⟨?_, halign, page_aligned halign count⟩, hmiss⟩
  show p < p + count * vmmPageSize
  rw [BitVec.lt_def, range_stop hlt]
  omega

/-- **The range at the watermark is registered.** -/
theorem RegisteredState.Accounts.register (h : k.Accounts R name S₀ S) {p count : U32}
    (hp : p = k.kernel.vmm.nextVaddr) (hlt : p.toNat + count.toNat * 4096 < 2 ^ 32)
    (hpos : 0 < count.toNat) (hadm : S.Admits (rangeArea name (p, count))) {vmm : VmmState σ} {t : ρ}
    (hrel : R.Rel t (S.insert _ hadm))
    (hend : vmm.nextVaddr.toNat = p.toNat + count.toNat * 4096) (haligned : vmm.nextVaddr.PageAligned) :
    RegisteredState.Accounts R name S₀ ⟨⟨vmm, k.kernel.heap, (p, count) :: k.kernel.pages⟩,
      ⟨k.registry.ready, t⟩, (p, count) :: k.live, k.heapPages⟩ (S.insert _ hadm) := by
  have hmem : ∀ a, a ∈ (S.insert _ hadm).areas ↔ a = rangeArea name (p, count) ∨ a ∈ S.areas :=
    fun a => AreaSet.mem_insertList
  have hbelow : ∀ r ∈ k.kernel.pages, r.1.toNat < p.toNat := fun r hr => hp ▸ h.below r hr
  -- no earlier result begins at the watermark
  have hnew : ∀ r ∈ k.kernel.pages, p ≠ r.1 := by
    rintro r hr rfl
    exact lt_irrefl _ (hbelow r hr)
  refine ⟨h.ready, hrel, fun a ha => (hmem a).mpr (.inr (h.boot a ha)), fun r hr => ?_,
    List.nodup_cons.mpr ⟨fun hin => hnew _ (h.live _ hin).1 rfl, h.nodup⟩, h.heap, fun r hr => ?_,
    fun r hr a ha => ?_, List.pairwise_cons.mpr ⟨hnew, h.distinct⟩, haligned⟩
  · rcases List.mem_cons.mp hr with rfl | hr
    · exact ⟨List.mem_cons_self, hp ▸ h.aligned, hlt, (hmem _).mpr (.inl rfl)⟩
    · obtain ⟨h₁, h₂, h₃, h₄⟩ := h.live r hr
      exact ⟨List.mem_cons_of_mem _ h₁, h₂, h₃, (hmem _).mpr (.inr h₄)⟩
  · rcases List.mem_cons.mp hr with rfl | hr
    · show p.toNat < vmm.nextVaddr.toNat
      omega
    · show r.1.toNat < vmm.nextVaddr.toNat
      have := hbelow r hr
      omega
  · rcases List.mem_cons.mp hr with rfl | hr
    · -- an area of the start that begins there would meet the range
      intro hstart
      have hp : a.start = p := hstart
      refine hadm.2.2 a (h.boot a ha) ?_
      rw [VmArea.overlaps_iff]
      constructor
      · show p < a.stop
        rw [← hp]
        exact S₀.separated.1 a ha
      · show a.start < p + count * vmmPageSize
        rw [hp, BitVec.lt_def, range_stop hlt]
        omega
    · exact h.starts r hr a ha

/-- **A request for pages** that fails, or whose range meets no registered area while there is room, keeps
the invariant. -/
theorem RegisteredState.Accounts.alloc (h : k.Accounts R name S₀ S) (hmax : room ≤ vmaMaxAreas)
    {count : U32}
    (hcond : (vmmAllocPages P count k.kernel.vmm).2 = 0#32 ∨ count.toNat * 4096 < 2 ^ 32 ∧
      B.count k.registry.state < room ∧ ∀ x, k.kernel.vmm.nextVaddr ≤ x →
        x.toNat < k.kernel.vmm.nextVaddr.toNat + count.toNat * 4096 →
        vmaFind B x k.registry = some none)
    {k' : RegisteredState σ ρ} {answer : U32}
    (hres : registeredCall P B name k (.allocPages count) = some (k', answer)) :
    ∃ S', k'.Accounts R name S₀ S' := by
  obtain ⟨s', p, halloc⟩ : ∃ s' p, vmmAllocPages P count k.kernel.vmm = (s', p) := ⟨_, _, rfl⟩
  obtain ⟨haligned, hgrows, hrange⟩ := vmmAllocPages_watermark halloc
  rw [halloc] at hcond
  by_cases hp : p = 0#32
  · -- nothing is registered
    have hcall : vmmAllocPagesRegistered P B name count k.kernel.vmm k.registry =
        some ((s', k.registry), 0#32) := by
      unfold vmmAllocPagesRegistered
      rw [halloc, hp]
      rfl
    simp only [registeredCall, hcall, Option.map_some] at hres
    obtain ⟨rfl, -⟩ := Prod.mk.inj (Option.some.inj hres)
    exact ⟨S, h.ready, h.rel, h.boot, h.live, h.nodup, h.heap, fun r hr => (h.below r hr).trans_le hgrows,
      h.starts, h.distinct, haligned h.aligned⟩
  obtain ⟨hbytes, hcount, hfree⟩ := hcond.resolve_left hp
  obtain ⟨hpeq, hzero, hend⟩ := hrange hp
  rw [← hpeq] at hfree
  have hend := hend hbytes
  have hlt : p.toNat + count.toNat * 4096 < 2 ^ 32 := by
    have hbound := s'.nextVaddr.isLt
    omega
  have hpos : 0 < count.toNat := by
    by_contra hnot
    exact hzero (BitVec.eq_of_toNat_eq (Nat.eq_zero_of_not_pos hnot))
  have hlen : S.areas.length < room := by
    rw [← R.count h.rel]
    exact hcount
  have hadm : S.Admits (rangeArea name (p, count)) :=
    range_admits (hlen.trans_le hmax) (hpeq ▸ h.aligned) hlt hpos (h.range_misses hlt hpos hfree)
  -- the registry takes the area
  obtain ⟨t, hcall, hrel⟩ := registeredCall_alloc name h.ready h.rel hlen halloc hp
  rw [AreaSet.add_of_admits hadm] at hrel
  obtain ⟨rfl, -⟩ := Prod.mk.inj (Option.some.inj (hcall.symm.trans hres))
  exact ⟨_, h.register hpeq hlt hpos hadm hrel hend (haligned h.aligned)⟩

/-- **Giving back an earlier result** keeps the invariant, also when it was given back before. -/
theorem RegisteredState.Accounts.free (h : k.Accounts R name S₀ S) {p count : U32}
    {k' : RegisteredState σ ρ} {answer : U32}
    (hres : registeredCall P B name k (.freePages p count) = some (k', answer)) :
    ∃ S', k'.Accounts R name S₀ S' := by
  by_cases hheld : k.kernel.pages.contains (p, count)
  · have hpage := List.contains_iff_mem.mp hheld
    simp only [registeredCall, if_pos hheld] at hres
    obtain ⟨⟨vmm, registry⟩, hcall, hr⟩ := Option.map_eq_some_iff.mp hres
    obtain ⟨rfl, -⟩ := Prod.mk.inj hr
    have hsub : ∀ r ∈ k.live.erase (p, count), r ∈ k.live := fun r hr => List.mem_of_mem_erase hr
    unfold vmmFreePagesRegistered at hcall
    split at hcall
    · obtain ⟨rfl, rfl⟩ := Prod.mk.inj (Option.some.inj hcall)
      exact ⟨S, h.ready, h.rel, h.boot, fun r hr => h.live r (hsub r hr), h.nodup.erase _, h.heap,
        h.below, h.starts, h.distinct, h.aligned⟩
    rw [if_pos h.ready] at hcall
    obtain ⟨t, hremove, hrel⟩ := R.remove h.rel p
    have hvma : vmaRemove B p k.registry = some (⟨k.registry.ready, t⟩, (S.remove p).2) := by
      unfold vmaRemove
      rw [if_neg (not_not.mpr h.ready), hremove]
      rfl
    rw [hvma] at hcall
    obtain ⟨rfl, rfl⟩ := Prod.mk.inj (Option.some.inj hcall)
    -- the areas that begin elsewhere stay
    have hkeep : ∀ a ∈ S.areas, a.start ≠ p → a ∈ (S.remove p).1.areas := by
      intro a ha hne
      unfold AreaSet.remove
      split
      · rw [AreaSet.areas_erase, List.mem_filter]
        exact ⟨ha, decide_eq_true hne⟩
      · exact ha
    have hother : ∀ r ∈ k.live.erase (p, count), r.1 ≠ p := by
      intro r hr
      have hne : r ≠ (p, count) := fun heq => (h.nodup.mem_erase_iff.mp hr).1 heq
      have : Std.Symm fun r r' : U32 × U32 => r.1 ≠ r'.1 := ⟨fun _ _ hd => hd.symm⟩
      exact h.distinct.forall (h.live r (hsub r hr)).1 hpage hne
    have hnext : (vmmFreePages P p count k.kernel.vmm).nextVaddr = k.kernel.vmm.nextVaddr :=
      vmmFreePages_nextVaddr p count k.kernel.vmm
    refine ⟨(S.remove p).1, h.ready, hrel, fun a ha => hkeep a (h.boot a ha) (h.starts _ hpage a ha),
      fun r hr => ?_, h.nodup.erase _, h.heap, fun r hr => ?_, h.starts, h.distinct, ?_⟩
    · obtain ⟨h₁, h₂, h₃, h₄⟩ := h.live r (hsub r hr)
      exact ⟨h₁, h₂, h₃, hkeep _ h₄ (hother r hr)⟩
    · show r.1.toNat < (vmmFreePages P p count k.kernel.vmm).nextVaddr.toNat
      rw [hnext]
      exact h.below r hr
    · show (vmmFreePages P p count k.kernel.vmm).nextVaddr.PageAligned
      rw [hnext]
      exact h.aligned
  · simp only [registeredCall, if_neg hheld] at hres
    obtain ⟨rfl, -⟩ := Prod.mk.inj (Option.some.inj hres)
    exact ⟨S, h⟩

end Steps

end Microkernel.Kernel
