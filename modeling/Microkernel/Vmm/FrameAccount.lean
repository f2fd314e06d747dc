import Microkernel.Vmm.FrameSupply

/-! # Frames are accounted for

Every frame that the virtual memory manager requests is, at any time, free again, a page table, or mapped
to exactly one page. The invariant compares a state with an earlier one and a set of pages that were
mapped since; each step of `vmm_alloc_pages` and `vmm_free_pages` adds a page to the set or takes one
away.

* **`CountingPmm`** — a physical allocator that counts exactly.
* **`Balanced`** — frames were taken for page tables only.
* **`Account`, `Account.mapFresh`, `Account.release`** — the account, and the two steps.
-/

namespace Microkernel.Vmm

/-- **A physical allocator with exact accounts**: what is in use changes by the frame given or taken
back alone, and `pmm_free_pages` counts. -/
structure CountingPmm (σ : Type*) extends LawfulPmm σ where
  /-- `pmm_free_pages`. -/
  freePages : σ → U32
  /-- The frames that can be given. -/
  Managed : U32 → Prop
  managed : ∀ p, (allocPage p).1 ≠ 0#32 → Managed (allocPage p).1
  alloc_inUse : ∀ p f, InUse (allocPage p).2 f ↔
    InUse p f ∨ (allocPage p).1 ≠ 0#32 ∧ f = (allocPage p).1
  alloc_count : ∀ p, (freePages (allocPage p).2).toNat + (if (allocPage p).1 = 0#32 then 0 else 1) =
    (freePages p).toNat
  free_inUse : ∀ p g, Managed g → InUse p g → ∀ f, InUse (freePage g p) f ↔ InUse p f ∧ f ≠ g
  free_count : ∀ p g, Managed g → InUse p g →
    (freePages (freePage g p)).toNat = (freePages p).toNat + 1

section Tables
variable {σ : Type*} {P : CountingPmm σ} {s s' s'' : VmmState σ} {f : U32}

/-- The frame holds a page table. -/
def VmmState.IsTable (s : VmmState σ) (f : U32) : Prop := ∃ i, entryTarget (s.pd i) = some f

/-- The number of page tables. -/
def VmmState.tableCount (s : VmmState σ) : ℕ :=
  ((Finset.range 1024).filter fun i => IsPresent (s.pd (BitVec.ofNat 32 i))).card

/-- Which frames are tables is read off the directory. -/
theorem VmmState.IsTable.congr (h : ∀ i, entryTarget (s'.pd i) = entryTarget (s.pd i)) :
    s'.IsTable f ↔ s.IsTable f := by
  unfold VmmState.IsTable
  simp only [h]

/-- So is how many there are. -/
theorem VmmState.tableCount_congr (h : ∀ i, entryTarget (s'.pd i) = entryTarget (s.pd i)) :
    s'.tableCount = s.tableCount := by
  have hpresent : ∀ i, IsPresent (s'.pd i) ↔ IsPresent (s.pd i) := by
    intro i
    rw [← not_iff_not, ← entryTarget_eq_none, ← entryTarget_eq_none, h]
  unfold VmmState.tableCount
  simp only [hpresent]

/-- **The only frames taken are page tables**, and each of them is counted. -/
structure VmmState.Balanced (P : CountingPmm σ) (s s' : VmmState σ) : Prop where
  inUse : ∀ f, P.InUse s'.pmm f ↔ P.InUse s.pmm f ∨ s'.IsTable f
  count : (P.freePages s'.pmm).toNat + s'.tableCount = (P.freePages s.pmm).toNat + s.tableCount

/-- A state is balanced with itself. -/
theorem VmmState.Balanced.refl (h : s.WellFormed P.InUse) : s.Balanced P s :=
  ⟨fun f => ⟨.inl, fun hf => hf.elim id fun ⟨i, hi⟩ => h.inUse i f hi⟩, rfl⟩

/-- Only the allocator and the targets of the directory matter. -/
theorem VmmState.Balanced.congr (h : s.Balanced P s') (hpmm : s''.pmm = s'.pmm)
    (htarget : ∀ i, entryTarget (s''.pd i) = entryTarget (s'.pd i)) : s.Balanced P s'' := by
  refine ⟨fun f => ?_, ?_⟩
  · rw [hpmm, VmmState.IsTable.congr htarget]
    exact h.inUse f
  · rw [hpmm, VmmState.tableCount_congr htarget]
    exact h.count

/-- A page table is found or made. -/
theorem vmmEnsurePageTable_balanced (h : s.WellFormed P.InUse) {i : U32} (hi : i.toNat < 1024) :
    s.Balanced P (vmmEnsurePageTable P.toPmmOps i s).1 := by
  by_cases hpde : IsPresent (s.pd i)
  · rw [show vmmEnsurePageTable P.toPmmOps i s = (s, physToVirt (entryFrame (s.pd i))) from
      if_pos hpde]
    exact .refl h
  have hinUse := P.alloc_inUse s.pmm
  have hcount := P.alloc_count s.pmm
  have hfresh := P.lawful.fresh s.pmm
  cases halloc : P.allocPage s.pmm with
  | mk f pmm =>
    rw [halloc] at hinUse hcount hfresh
    dsimp only at hinUse hcount hfresh
    by_cases hf : f = 0#32
    · -- no frame for the table
      have heq : (vmmEnsurePageTable P.toPmmOps i s).1 = { s with pmm := pmm } := by
        simp only [vmmEnsurePageTable, if_neg hpde, halloc, if_pos hf]
      rw [heq]
      refine ⟨fun g => ?_, ?_⟩
      · have hnone : ¬ (f ≠ 0#32 ∧ g = f) := fun hc => hc.1 hf
        rw [hinUse g, or_iff_left hnone]
        exact ((VmmState.Balanced.refl h).inUse g)
      · rw [if_pos hf] at hcount
        show (P.freePages pmm).toNat + s.tableCount = _
        rw [← hcount, Nat.add_zero]
    obtain ⟨halign, hnot, -⟩ := hfresh hf
    -- the frame becomes the table of the entry, and no other entry changes
    obtain ⟨s', hs'⟩ : ∃ s', s' = (vmmEnsurePageTable P.toPmmOps i s).1 := ⟨_, rfl⟩
    rw [← hs']
    simp only [vmmEnsurePageTable, if_neg hpde, halloc, if_neg hf] at hs'
    have hpd : s'.pd = Function.update s.pd i (f ||| ptePresent ||| pteWritable) := by rw [hs']
    have hpmm : s'.pmm = pmm := by rw [hs']
    have hself : entryTarget (s'.pd i) = some f := by
      rw [hpd, Function.update_self, entryTarget_table halign]
    have hother : ∀ j, j ≠ i → s'.pd j = s.pd j := by
      intro j hj
      rw [hpd, Function.update_of_ne hj]
    refine ⟨fun g => ?_, ?_⟩
    · rw [hpmm, hinUse g]
      constructor
      · rintro (hg | ⟨-, rfl⟩)
        exacts [.inl hg, .inr ⟨i, hself⟩]
      · rintro (hg | ⟨j, hj⟩)
        · exact .inl hg
        · by_cases hji : j = i
          · rw [hji, hself] at hj
            exact .inr ⟨hf, (Option.some.inj hj).symm⟩
          · rw [hother j hji] at hj
            exact .inl (h.inUse j g hj)
    · -- the entry is one more of those with a table
      have hpresent : IsPresent (s'.pd i) := by
        by_contra hnone
        rw [entryTarget_eq_none.mpr hnone] at hself
        exact absurd hself (by simp)
      have hset : ((Finset.range 1024).filter fun j => IsPresent (s'.pd (BitVec.ofNat 32 j))) =
          insert i.toNat
            ((Finset.range 1024).filter fun j => IsPresent (s.pd (BitVec.ofNat 32 j))) := by
        ext j
        simp only [Finset.mem_filter, Finset.mem_range, Finset.mem_insert]
        by_cases hji : j = i.toNat
        · subst hji
          simp [hi, hpresent]
        · have hne : j < 1024 → BitVec.ofNat 32 j ≠ i := by
            rintro hlt rfl
            rw [BitVec.toNat_ofNat] at hji
            omega
          constructor
          · rintro ⟨hlt, hp⟩
            rw [hother _ (hne hlt)] at hp
            exact .inr ⟨hlt, hp⟩
          · rintro (heq | ⟨hlt, hp⟩)
            · exact absurd heq hji
            · rw [hother _ (hne hlt)]
              exact ⟨hlt, hp⟩
      have hnew : i.toNat ∉
          (Finset.range 1024).filter fun j => IsPresent (s.pd (BitVec.ofNat 32 j)) := by
        simp [hpde]
      have hcard : s'.tableCount = s.tableCount + 1 := by
        unfold VmmState.tableCount
        rw [hset, Finset.card_insert_of_notMem hnew]
      rw [if_neg hf] at hcount
      rw [hpmm, hcard]
      omega

/-- **`vmm_map_page`** takes frames for page tables only. -/
theorem vmmMapPage_balanced (h : s.WellFormed P.InUse) (virt phys flags : U32) :
    s.Balanced P (vmmMapPage P.toPmmOps virt phys flags s).1 := by
  have hi : (pdIndex virt).toNat < 1024 := by
    have hlt := virt.isLt
    rw [pdIndex_toNat]
    omega
  have hens := vmmEnsurePageTable_balanced h hi
  by_cases halign : ¬ virt.PageAligned ∨ ¬ phys.PageAligned
  · rw [show vmmMapPage P.toPmmOps virt phys flags s = (s, -1) from if_pos halign]
    exact .refl h
  cases hres : vmmEnsurePageTable P.toPmmOps (pdIndex virt) s with
  | mk s₁ pt =>
    rw [hres] at hens
    by_cases hpt : pt = 0#32
    · simp only [vmmMapPage, if_neg halign, hres, if_pos hpt]
      exact hens
    by_cases huser : flags &&& pteUser ≠ 0#32
    · simp only [vmmMapPage, if_neg halign, hres, if_neg hpt, if_pos huser]
      refine hens.congr rfl fun i => ?_
      by_cases hi : i = pdIndex virt
      · simp only [hi, Function.update_self, entryTarget_user]
      · simp only [Function.update_of_ne hi]
    · simp only [vmmMapPage, if_neg halign, hres, if_neg hpt, if_neg huser]
      exact hens.congr rfl fun _ => rfl

end Tables
/-! ### The pages that were mapped since -/

/-- **The account since an earlier state**: the pages `V`, which were not mapped then, are mapped to
distinct frames that were not in use and hold no page table, every other page is translated as then, and
the frames taken since are these frames and page tables. -/
structure VmmState.Account {σ : Type*} (P : CountingPmm σ) (s₀ s : VmmState σ) (V : Finset U32) :
    Prop where
  wellFormed : s.WellFormed P.InUse
  ready : s.ready = s₀.ready
  inUse : ∀ f, P.InUse s.pmm f ↔
    P.InUse s₀.pmm f ∨ s.IsTable f ∨ ∃ v ∈ V, s.translate v = some f
  other : ∀ v, v.PageAligned → v ∉ V → s.translate v = s₀.translate v
  fresh : ∀ v ∈ V, v.PageAligned ∧ s₀.translate v = none
  frame : ∀ v ∈ V, ∃ f, s.translate v = some f ∧ P.Managed f ∧ ¬ P.InUse s₀.pmm f ∧ ¬ s.IsTable f
  injective : ∀ v ∈ V, ∀ w ∈ V, s.translate v = s.translate w → v = w
  count : (P.freePages s.pmm).toNat + s.tableCount + V.card =
    (P.freePages s₀.pmm).toNat + s₀.tableCount

section Account
variable {σ : Type*} {P : CountingPmm σ} {s₀ s s' : VmmState σ} {V : Finset U32} {v f : U32}

/-- Nothing has been mapped yet. -/
theorem VmmState.Account.start (h : s.WellFormed P.InUse) : VmmState.Account P s s ∅ where
  wellFormed := h
  ready := rfl
  inUse f := by
    have hself := (VmmState.Balanced.refl h).inUse f
    simp only [Finset.notMem_empty, false_and, exists_false, or_false]
    exact hself
  other _ _ _ := rfl
  fresh v hv := absurd hv (Finset.notMem_empty v)
  frame v hv := absurd hv (Finset.notMem_empty v)
  injective v hv := absurd hv (Finset.notMem_empty v)
  count := by rw [Finset.card_empty, Nat.add_zero]

/-- Other static data does not matter. -/
theorem VmmState.Account.congr (h : VmmState.Account P s₀ s V) (hpd : s'.pd = s.pd)
    (htable : s'.table = s.table) (hready : s'.ready = s.ready) (hpmm : s'.pmm = s.pmm) :
    VmmState.Account P s₀ s' V := by
  obtain ⟨pd, table, ready, nextVaddr, directMapEnd, pmm⟩ := s'
  subst hpd htable hready hpmm
  exact ⟨⟨h.wellFormed.inUse, h.wellFormed.injective⟩, h.ready, h.inUse, h.other, h.fresh, h.frame,
    h.injective, h.count⟩

/-- A page that was not mapped then and is now was mapped since. -/
theorem VmmState.Account.mem_of_translate (h : VmmState.Account P s₀ s V) (hv : v.PageAligned)
    (h₀ : s₀.translate v = none) (hf : s.translate v = some f) : v ∈ V := by
  by_contra hnot
  rw [h.other v hv hnot, h₀] at hf
  exact absurd hf (by simp)

/-- The frame of a page that was mapped since. -/
theorem VmmState.Account.of_translate (h : VmmState.Account P s₀ s V) (hv : v ∈ V)
    (hf : s.translate v = some f) :
    P.Managed f ∧ ¬ P.InUse s₀.pmm f ∧ ¬ s.IsTable f ∧ P.InUse s.pmm f := by
  obtain ⟨g, hg, hmanaged, hnot, htable⟩ := h.frame v hv
  obtain rfl := Option.some.inj (hf.symm.trans hg)
  exact ⟨hmanaged, hnot, htable, (h.inUse f).mpr (.inr (.inr ⟨v, hv, hf⟩))⟩

/-- Frames that hold no page table and are in use do not get one. -/
theorem VmmState.Extends.not_isTable (h : s.Extends s' P.InUse) (hf : ¬ s.IsTable f)
    (huse : P.InUse s.pmm f) : ¬ s'.IsTable f := by
  rintro ⟨i, hi⟩
  rcases h.fresh i f hi with hi | hi
  exacts [hf ⟨i, hi⟩, hi huse]

/-- A state that extends another one keeps its tables. -/
theorem VmmState.Extends.isTable (h : s.Extends s' P.InUse) (hf : s.IsTable f) : s'.IsTable f := by
  obtain ⟨i, hi⟩ := hf
  exact ⟨i, h.target i f hi⟩

/-- What a fresh page costs: page tables, and its frame when it was mapped. -/
theorem mapFreshPage_balance (h : s.WellFormed P.InUse) (virt : U32) {phys : U32} {ok : Bool}
    (hres : mapFreshPage P.toLawfulPmm virt s = (s', phys, ok)) :
    (∀ f, P.InUse s'.pmm f ↔ P.InUse s.pmm f ∨ s'.IsTable f ∨ ok = true ∧ f = phys) ∧
      (P.freePages s'.pmm).toNat + s'.tableCount + (if ok then 1 else 0) =
        (P.freePages s.pmm).toNat + s.tableCount ∧
      (ok = true → P.Managed phys) := by
  obtain ⟨hwf₁, hext₁⟩ := h.request
  have hinUse := P.alloc_inUse s.pmm
  have hcount := P.alloc_count s.pmm
  have hmanaged := P.managed s.pmm
  have hfresh := P.lawful.fresh s.pmm
  cases halloc : P.allocPage s.pmm with
  | mk g pmm =>
    rw [halloc] at hwf₁ hext₁ hinUse hcount hmanaged hfresh
    dsimp only at hwf₁ hext₁ hinUse hcount hmanaged hfresh
    by_cases hg : g = 0#32
    · simp only [mapFreshPage, halloc, if_pos hg] at hres
      simp only [Prod.mk.injEq] at hres
      obtain ⟨rfl, rfl, rfl⟩ := hres
      rw [if_pos hg] at hcount
      refine ⟨fun f => ?_, ?_, fun hok => absurd hok (by decide)⟩
      · have hnone : ¬ (g ≠ 0#32 ∧ f = g) := fun hc => hc.1 hg
        show P.InUse pmm f ↔ P.InUse s.pmm f ∨ s.IsTable f ∨ false = true ∧ f = g
        rw [hinUse f, or_iff_left hnone, or_iff_left (b := false = true ∧ f = g) (by simp)]
        exact (VmmState.Balanced.refl h).inUse f
      · show (P.freePages pmm).toNat + s.tableCount + 0 = _
        omega
    obtain ⟨-, hnot, huse⟩ := hfresh hg
    rw [if_neg hg] at hcount
    obtain ⟨s₁, hs₁⟩ : ∃ s₁ : VmmState σ, s₁ = { s with pmm := pmm } := ⟨_, rfl⟩
    have hpmm₁ : s₁.pmm = pmm := by rw [hs₁]
    have htable₁ : s₁.tableCount = s.tableCount := by rw [hs₁]; rfl
    rw [← hs₁] at hwf₁ hext₁
    have hbal := vmmMapPage_balanced hwf₁ virt g (ptePresent ||| pteWritable)
    obtain ⟨s₂, r, hmap, hwf₂, hext₂, -⟩ := vmmMapPage_entry P.lawful hwf₁ virt g
      (ptePresent ||| pteWritable)
    rw [hmap] at hbal
    dsimp only at hbal
    -- the frame itself holds no page table
    have hself : ¬ s₂.IsTable g := by
      refine VmmState.Extends.not_isTable hext₂ ?_ (by rw [hpmm₁]; exact huse)
      rintro ⟨i, hi⟩
      rw [hs₁] at hi
      exact hnot (h.inUse i g hi)
    have hcount₂ := hbal.count
    rw [hpmm₁, htable₁] at hcount₂
    have hinUse₂ : ∀ f, P.InUse s₂.pmm f ↔ P.InUse s.pmm f ∨ f = g ∨ s₂.IsTable f := by
      intro f
      rw [hbal.inUse f, hpmm₁, hinUse f, or_assoc]
      simp only [ne_eq, hg, not_false_eq_true, true_and]
    simp only [mapFreshPage, halloc, if_neg hg, ← hs₁, hmap] at hres
    by_cases hr : r = 0
    · rw [if_neg (not_not.mpr hr)] at hres
      simp only [Prod.mk.injEq] at hres
      obtain ⟨rfl, rfl, rfl⟩ := hres
      refine ⟨fun f => ?_, ?_, fun _ => hmanaged hg⟩
      · rw [hinUse₂ f]
        simp only [true_and]
        exact or_congr_right or_comm
      · rw [if_pos rfl]
        omega
    · -- the frame goes back
      rw [if_pos hr] at hres
      simp only [Prod.mk.injEq] at hres
      obtain ⟨rfl, rfl, rfl⟩ := hres
      have huse₂ : P.InUse s₂.pmm g := (hinUse₂ g).mpr (.inr (.inl rfl))
      have hfree := P.free_inUse s₂.pmm g (hmanaged hg) huse₂
      have hback := P.free_count s₂.pmm g (hmanaged hg) huse₂
      refine ⟨fun f => ?_, ?_, fun hok => absurd hok (by decide)⟩
      · show P.InUse (P.freePage g s₂.pmm) f ↔
          P.InUse s.pmm f ∨ s₂.IsTable f ∨ false = true ∧ f = g
        have hne : P.InUse s.pmm f → f ≠ g := by
          rintro hf rfl
          exact hnot hf
        have hne' : s₂.IsTable f → f ≠ g := by
          rintro hf rfl
          exact hself hf
        rw [hfree f, hinUse₂ f]
        simp only [Bool.false_eq_true, false_and, or_false]
        constructor
        · rintro ⟨hf | hf | hf, hfg⟩
          exacts [.inl hf, absurd hf hfg, .inr hf]
        · rintro (hf | hf)
          exacts [⟨.inl hf, hne hf⟩, ⟨.inr (.inr hf), hne' hf⟩]
      · show (P.freePages (P.freePage g s₂.pmm)).toNat + s₂.tableCount + 0 = _
        omega

/-- **Mapping a fresh page** puts it into the account. -/
theorem VmmState.Account.mapFresh (h : VmmState.Account P s₀ s V)
    (h₀ : v.PageAligned → s₀.translate v = none) (hv : v ∉ V) :
    ∃ s' phys ok, mapFreshPage P.toLawfulPmm v s = (s', phys, ok) ∧ s'.nextVaddr = s.nextVaddr ∧
      VmmState.Account P s₀ s' (if ok then insert v V else V) := by
  obtain ⟨s', phys, ok, hres, hwf, hext, hcase⟩ := mapFreshPage_spec h.wellFormed v
  obtain ⟨hinUse, hcount, hmanaged⟩ := mapFreshPage_balance h.wellFormed v hres
  refine ⟨s', phys, ok, hres, hext.nextVaddr, ?_⟩
  have hold : ∀ f, P.InUse s'.pmm f ↔ P.InUse s₀.pmm f ∨ s'.IsTable f ∨
      (∃ w ∈ V, s.translate w = some f) ∨ ok = true ∧ f = phys := by
    intro f
    rw [hinUse f, h.inUse f]
    constructor
    · rintro ((hf | hf | hf) | hf | hf)
      exacts [.inl hf, .inr (.inl (hext.isTable hf)), .inr (.inr (.inl hf)), .inr (.inl hf),
        .inr (.inr (.inr hf))]
    · rintro (hf | hf | hf | hf)
      exacts [.inl (.inl hf), .inr (.inl hf), .inl (.inr (.inr hf)), .inr (.inr hf)]
  have hframe : ∀ w ∈ V, ∃ f, s.translate w = some f ∧ P.Managed f ∧ ¬ P.InUse s₀.pmm f ∧
      ¬ s'.IsTable f := by
    intro w hw
    obtain ⟨f, hf, hman, hnot, htable⟩ := h.frame w hw
    exact ⟨f, hf, hman, hnot, hext.not_isTable htable (h.of_translate hw hf).2.2.2⟩
  have hready := hext.ready.trans h.ready
  have hbefore := h.count
  rcases hcase with ⟨rfl, hentry⟩ | ⟨rfl, -, -, hvirt, hnot, -, hother, htrans⟩
  · -- no entry has changed
    have htrans : ∀ w, s'.translate w = s.translate w := by
      intro w
      rw [VmmState.translate_eq, hentry, ← VmmState.translate_eq]
    simp only [Bool.false_eq_true, if_false] at hcount ⊢
    refine ⟨hwf, hready, fun f => ?_, fun w hw hwV => ?_, h.fresh, fun w hw => ?_,
      fun w hw x hx hwx => ?_, by omega⟩
    · rw [hold f]
      simp only [Bool.false_eq_true, false_and, or_false, htrans]
    · rw [htrans, h.other w hw hwV]
    · rw [htrans]
      exact hframe w hw
    · rw [htrans, htrans] at hwx
      exact h.injective w hw x hx hwx
  · simp only [if_true] at hcount ⊢
    have hself : s'.translate v = some phys := (htrans v hvirt).trans (if_pos rfl)
    have hne : ∀ w ∈ V, w ≠ v := by
      rintro w hw rfl
      exact hv hw
    have hsame : ∀ w ∈ V, s'.translate w = s.translate w := fun w hw =>
      (htrans w (h.fresh w hw).1).trans (if_neg (hne w hw))
    -- another page has a frame that was in use before the call
    have hdiff : ∀ w ∈ V, s'.translate w ≠ some phys := by
      intro w hw hf
      rw [hsame w hw] at hf
      exact hnot (h.of_translate hw hf).2.2.2
    refine ⟨hwf, hready, fun f => ?_, fun w hw hwV => ?_, fun w hw => ?_, fun w hw => ?_,
      fun w hw x hx hwx => ?_, ?_⟩
    · have hpages : (∃ w ∈ insert v V, s'.translate w = some f) ↔
          (∃ w ∈ V, s.translate w = some f) ∨ f = phys := by
        constructor
        · rintro ⟨w, hw, hf⟩
          rcases Finset.mem_insert.mp hw with rfl | hw
          · exact .inr (Option.some.inj (hf.symm.trans hself))
          · rw [hsame w hw] at hf
            exact .inl ⟨w, hw, hf⟩
        · rintro (⟨w, hw, hf⟩ | rfl)
          · exact ⟨w, Finset.mem_insert_of_mem hw, (hsame w hw).trans hf⟩
          · exact ⟨v, Finset.mem_insert_self v V, hself⟩
      rw [hold f, hpages]
      simp only [true_and]
    · rw [Finset.mem_insert, not_or] at hwV
      rw [htrans w hw, if_neg hwV.1, h.other w hw hwV.2]
    · rcases Finset.mem_insert.mp hw with rfl | hw
      exacts [⟨hvirt, h₀ hvirt⟩, h.fresh w hw]
    · rcases Finset.mem_insert.mp hw with rfl | hw
      · refine ⟨phys, hself, hmanaged rfl, fun hu => hnot ((h.inUse phys).mpr (.inl hu)), ?_⟩
        rintro ⟨i, hi⟩
        exact hother i hi
      · rw [hsame w hw]
        exact hframe w hw
    · rcases Finset.mem_insert.mp hw with rfl | hw
      · rcases Finset.mem_insert.mp hx with rfl | hx
        · rfl
        · exact absurd (hwx.symm.trans hself) (hdiff x hx)
      · rcases Finset.mem_insert.mp hx with rfl | hx
        · exact absurd (hwx.trans hself) (hdiff w ‹w ∈ V›)
        · rw [hsame w hw, hsame x hx] at hwx
          exact h.injective w hw x hx hwx
    · rw [Finset.card_insert_of_notMem hv]
      omega

/-- **Releasing a page**, frame first, takes it out of the account, and the frame is free. -/
theorem VmmState.Account.release (h : VmmState.Account P s₀ s V) (hv : v ∈ V)
    (hf : s.translate v = some f) :
    let s' := vmmUnmapPage v { s with pmm := P.freePage f s.pmm }
    VmmState.Account P s₀ s' (V.erase v) ∧ s'.nextVaddr = s.nextVaddr ∧
      (∀ g, P.InUse s'.pmm g ↔ P.InUse s.pmm g ∧ g ≠ f) ∧
      ∀ w, w.PageAligned → s'.translate w = if w = v then none else s.translate w := by
  obtain ⟨hmanaged, hnot, htable, huse⟩ := h.of_translate hv hf
  have hfree := P.free_inUse s.pmm f hmanaged huse
  have hcount := P.free_count s.pmm f hmanaged huse
  -- the frame goes back first; it is no table, so the page tables stay as they are
  obtain ⟨s₁, hs₁⟩ : ∃ s₁ : VmmState σ, s₁ = { s with pmm := P.freePage f s.pmm } := ⟨_, rfl⟩
  have hwf₁ : s₁.WellFormed P.InUse :=
    hs₁ ▸ h.wellFormed.free huse fun i hi => htable ⟨i, hi⟩
  have htrans₁ : ∀ w, s₁.translate w = s.translate w := by
    intro w
    rw [hs₁]
    rfl
  have hpmm₁ : s₁.pmm = P.freePage f s.pmm := by rw [hs₁]
  have hpd₁ : s₁.pd = s.pd := by rw [hs₁]
  obtain ⟨hstatic, hready⟩ := vmmUnmapPage_static s v (P.freePage f s.pmm)
  rw [← hs₁] at hstatic hready ⊢
  obtain ⟨hwf, hext, hpmm, -⟩ := vmmUnmapPage_entry hwf₁ v
  obtain ⟨-, -, htrans⟩ := vmmUnmapPage_spec hwf₁ v
  have hpd : (vmmUnmapPage v s₁).pd = s.pd := by
    rw [← hpd₁]
    unfold vmmUnmapPage
    split
    · rfl
    · dsimp only
      split <;> rfl
  dsimp only
  generalize vmmUnmapPage v s₁ = s' at hstatic hready hwf hpmm htrans hpd ⊢
  have htargets : ∀ i, entryTarget (s'.pd i) = entryTarget (s.pd i) := fun i => by rw [hpd]
  have htrans' : ∀ w, w.PageAligned → s'.translate w = if w = v then none else s.translate w := by
    intro w hw
    rw [htrans w hw, htrans₁]
  -- the pages that are left keep their frames, which are other ones
  have hsame : ∀ w ∈ V.erase v, s'.translate w = s.translate w := by
    intro w hw
    obtain ⟨hwv, hw⟩ := Finset.mem_erase.mp hw
    rw [htrans' w (h.fresh w hw).1, if_neg hwv]
  have hinUse : ∀ g, P.InUse s'.pmm g ↔ P.InUse s.pmm g ∧ g ≠ f := by
    intro g
    rw [hpmm, hpmm₁]
    exact hfree g
  refine ⟨⟨hwf, hready.trans h.ready, fun g => ?_, fun w hw hwV => ?_, fun w hw => ?_, fun w hw => ?_,
    fun w hw x hx hwx => ?_, ?_⟩, hstatic, hinUse, htrans'⟩
  · rw [hinUse g, h.inUse g, VmmState.IsTable.congr htargets]
    constructor
    · rintro ⟨hg | hg | ⟨w, hw, hg⟩, hgf⟩
      · exact .inl hg
      · exact .inr (.inl hg)
      · have hwv : w ≠ v := by
          rintro rfl
          exact hgf (Option.some.inj (hg.symm.trans hf))
        have hmem := Finset.mem_erase.mpr ⟨hwv, hw⟩
        exact .inr (.inr ⟨w, hmem, (hsame w hmem).trans hg⟩)
    · rintro (hg | hg | ⟨w, hw, hg⟩)
      · refine ⟨.inl hg, ?_⟩
        rintro rfl
        exact hnot hg
      · refine ⟨.inr (.inl hg), ?_⟩
        rintro rfl
        exact htable hg
      · rw [hsame w hw] at hg
        obtain ⟨hwv, hwV⟩ := Finset.mem_erase.mp hw
        refine ⟨.inr (.inr ⟨w, hwV, hg⟩), ?_⟩
        rintro rfl
        exact hwv (h.injective w hwV v hv (hg.trans hf.symm))
  · rw [htrans' w hw]
    by_cases hwv : w = v
    · rw [if_pos hwv, hwv, (h.fresh v hv).2]
    · rw [if_neg hwv]
      exact h.other w hw fun hmem => hwV (Finset.mem_erase.mpr ⟨hwv, hmem⟩)
  · exact h.fresh w (Finset.mem_of_mem_erase hw)
  · obtain ⟨g, hg, hman, hnew, hnotTable⟩ := h.frame w (Finset.mem_of_mem_erase hw)
    exact ⟨g, (hsame w hw).trans hg, hman, hnew, fun ht =>
      hnotTable ((VmmState.IsTable.congr htargets).mp ht)⟩
  · rw [hsame w hw, hsame x hx] at hwx
    exact h.injective w (Finset.mem_of_mem_erase hw) x (Finset.mem_of_mem_erase hx) hwx
  · have hcard := Finset.card_erase_add_one hv
    have hbefore := h.count
    rw [VmmState.tableCount_congr htargets, hpmm, hpmm₁]
    omega

end Account

/-! ### The free list -/

/-- There are fewer free frames than addresses. -/
theorem FreeFrames.length_lt (p : FreeFrames) : p.frames.length < 2 ^ 32 := by
  have hnodup : (p.frames.map fun f => f.toNat / 4096).Nodup := by
    refine List.Nodup.map_on ?_ p.nodup
    intro a ha b hb heq
    have haligned := (U32.pageAligned_iff a).mp (p.good a ha).1
    have hbligned := (U32.pageAligned_iff b).mp (p.good b hb).1
    apply BitVec.eq_of_toNat_eq
    omega
  have hsub : (p.frames.map fun f => f.toNat / 4096) ⊆ List.range (2 ^ 20) := by
    intro n hn
    obtain ⟨f, -, rfl⟩ := List.mem_map.mp hn
    have hlt := f.isLt
    rw [List.mem_range]
    omega
  have hle := (hnodup.subperm hsub).length_le
  rw [List.length_map, List.length_range] at hle
  omega

/-- **The free list keeps exact accounts.** -/
def freeListAccounts (totalPages managedBase : U32) : CountingPmm FreeFrames where
  toLawfulPmm := freeListPmm totalPages managedBase
  freePages p := BitVec.ofNat 32 p.frames.length
  Managed f := f.PageAligned ∧ f ≠ 0#32
  managed := by
    rintro ⟨l, hn, hg⟩ hne
    cases l with
    | nil => exact absurd rfl hne
    | cons f l => exact hg f List.mem_cons_self
  alloc_inUse := by
    rintro ⟨l, hn, hg⟩ f
    cases l with
    | nil =>
      refine ⟨.inl, fun hf => hf.elim id fun hc => absurd rfl hc.1⟩
    | cons g l =>
      have hne : g ≠ 0#32 := (hg g List.mem_cons_self).2
      show f ∉ l ↔ f ∉ g :: l ∨ g ≠ 0#32 ∧ f = g
      rw [List.mem_cons, not_or]
      constructor
      · intro hf
        by_cases hfg : f = g
        exacts [.inr ⟨hne, hfg⟩, .inl ⟨hfg, hf⟩]
      · rintro (hf | ⟨-, rfl⟩)
        exacts [hf.2, (List.nodup_cons.mp hn).1]
  alloc_count := by
    rintro ⟨l, hn, hg⟩
    cases l with
    | nil => rfl
    | cons g l =>
      have hne : g ≠ 0#32 := (hg g List.mem_cons_self).2
      have hlt := FreeFrames.length_lt ⟨g :: l, hn, hg⟩
      show (BitVec.ofNat 32 l.length).toNat + (if g = 0#32 then 0 else 1) =
        (BitVec.ofNat 32 (l.length + 1)).toNat
      rw [List.length_cons] at hlt
      rw [if_neg hne, BitVec.toNat_ofNat, BitVec.toNat_ofNat]
      omega
  free_inUse p g hg huse f := by
    have hnew : (g.PageAligned ∧ g ≠ 0#32) ∧ ¬ p.frames.contains g = true :=
      ⟨hg, fun hc => huse (List.contains_iff_mem.mp hc)⟩
    show f ∉ (FreeFrames.push g p).frames ↔ f ∉ p.frames ∧ f ≠ g
    unfold FreeFrames.push
    rw [dif_pos hnew, List.mem_cons, not_or, and_comm]
  free_count p g hg huse := by
    have hnew : (g.PageAligned ∧ g ≠ 0#32) ∧ ¬ p.frames.contains g = true :=
      ⟨hg, fun hc => huse (List.contains_iff_mem.mp hc)⟩
    have hlt := (FreeFrames.push g p).length_lt
    have hlen : (FreeFrames.push g p).frames.length = p.frames.length + 1 := by
      unfold FreeFrames.push
      rw [dif_pos hnew, List.length_cons]
    show (BitVec.ofNat 32 (FreeFrames.push g p).frames.length).toNat =
      (BitVec.ofNat 32 p.frames.length).toNat + 1
    rw [hlen] at hlt ⊢
    rw [BitVec.toNat_ofNat, BitVec.toNat_ofNat]
    omega

end Microkernel.Vmm
