import Microkernel.Vmm.AllocPages
import Mathlib.Data.Finset.Card

/-! # Enough frames

Mapping fails only for want of a frame. Every page table takes one frame, so as many frames as the
directory has empty entries are enough for any mappings; a free list of frames is an allocator that
supplies them.

* **`VmmState.Supplied`** — frames for the tables that are missing and for some pages.
* **`vmmInit_supplied`** — with them `vmm_init` succeeds.
* **`freeListPmm`** — the free list, with its answers about the memory of the machine. It is the allocator
  of the examples, where frames must really run out or not.
-/

namespace Microkernel.Vmm

open Function (update)

section Supply
variable {σ : Type*} {P : LawfulPmm σ} {s : VmmState σ} {k n : ℕ} {p : σ} {i v : U32}

/-- The next `k` requests are answered with frames whose addresses in the direct map are not `NULL`. -/
def LawfulPmm.Supplies (P : LawfulPmm σ) : ℕ → σ → Prop
  | 0, _ => True
  | k + 1, p => (P.allocPage p).1 ≠ 0#32 ∧ physToVirt (P.allocPage p).1 ≠ 0#32 ∧
      P.Supplies k (P.allocPage p).2

/-- Enough frames for more is enough for less. -/
theorem LawfulPmm.Supplies.mono (h : P.Supplies n p) (hk : k ≤ n) : P.Supplies k p := by
  induction n generalizing k p with
  | zero =>
    rw [Nat.le_zero.mp hk]
    trivial
  | succ n ih =>
    cases k with
    | zero => trivial
    | succ k =>
      obtain ⟨hne, hvirt, hrest⟩ := h
      exact ⟨hne, hvirt, ih hrest (Nat.le_of_succ_le_succ hk)⟩

/-- The directory entries without a page table. -/
def VmmState.missing (s : VmmState σ) : Finset ℕ :=
  (Finset.range 1024).filter fun i => ¬ IsPresent (s.pd (BitVec.ofNat 32 i))

/-- There are frames for all missing page tables and for `k` pages. -/
structure VmmState.Supplied (s : VmmState σ) (P : LawfulPmm σ) (k : ℕ) : Prop where
  frames : P.Supplies (s.missing.card + k) s.pmm
  tables : ∀ i f, entryTarget (s.pd i) = some f → physToVirt f ≠ 0#32

/-- No more tables are missing than the directory has entries. -/
theorem VmmState.missing_card_le (s : VmmState σ) : s.missing.card ≤ 1024 :=
  (Finset.card_filter_le _ _).trans (Finset.card_range 1024).le

/-- Only the directory and the allocator matter. -/
theorem VmmState.Supplied.congr (h : s.Supplied P k) {s' : VmmState σ} (hpd : s'.pd = s.pd)
    (hpmm : s'.pmm = s.pmm) : s'.Supplied P k := by
  have hmissing : s'.missing = s.missing := by
    unfold VmmState.missing
    rw [hpd]
  refine ⟨?_, ?_⟩
  · rw [hmissing, hpmm]
    exact h.frames
  · rw [hpd]
    exact h.tables

/-- A page table is found or made. -/
theorem vmmEnsurePageTable_supplied (h : s.Supplied P k) (hi : i.toNat < 1024) :
    ∃ s' pt, vmmEnsurePageTable P.toPmmOps i s = (s', pt) ∧ pt ≠ 0#32 ∧ s'.Supplied P k := by
  by_cases hpde : IsPresent (s.pd i)
  · refine ⟨s, physToVirt (entryFrame (s.pd i)), ?_, h.tables i _ (if_pos hpde), h⟩
    unfold vmmEnsurePageTable
    exact if_pos hpde
  -- the entry is one of the missing ones
  have hmem : i.toNat ∈ s.missing := by
    simp only [VmmState.missing, Finset.mem_filter, Finset.mem_range, BitVec.ofNat_toNat,
      BitVec.setWidth_eq]
    exact ⟨hi, hpde⟩
  have hcard := Finset.card_erase_add_one hmem
  have hframes := h.frames
  rw [← hcard, Nat.add_right_comm] at hframes
  obtain ⟨hne, hvirt, hrest⟩ := hframes
  obtain ⟨halign, -, -⟩ := P.lawful.fresh s.pmm hne
  cases halloc : P.allocPage s.pmm with
  | mk f pmm =>
    rw [halloc] at hne hvirt hrest halign
    obtain ⟨s', hs'⟩ : ∃ s' : VmmState σ, s' = { s with
      pmm := pmm
      table := update s.table (physToVirt f) (memzeroPage (s.table (physToVirt f)) 1024)
      pd := update s.pd i (f ||| ptePresent ||| pteWritable) } := ⟨_, rfl⟩
    have hself : s'.pd i = f ||| ptePresent ||| pteWritable := by
      rw [hs']
      exact Function.update_self ..
    have htarget : entryTarget (s'.pd i) = some f := by
      rw [hself]
      exact entryTarget_table halign
    have hother : ∀ j, j ≠ i → s'.pd j = s.pd j := by
      intro j hj
      rw [hs']
      exact Function.update_of_ne hj ..
    refine ⟨s', physToVirt f, ?_, hvirt, ?_, fun j g hg => ?_⟩
    · simp only [vmmEnsurePageTable, if_neg hpde, halloc, if_neg hne, hs']
    · have hsub : s'.missing ⊆ s.missing.erase i.toNat := by
        intro j hj
        simp only [VmmState.missing, Finset.mem_filter, Finset.mem_range, Finset.mem_erase] at hj ⊢
        obtain ⟨hlt, hnot⟩ := hj
        have hji : BitVec.ofNat 32 j ≠ i := by
          intro heq
          rw [heq, ← entryTarget_eq_none, htarget] at hnot
          exact absurd hnot (by simp)
        rw [hother _ hji] at hnot
        refine ⟨?_, hlt, hnot⟩
        rintro rfl
        exact hji (by simp)
      have hle := Finset.card_le_card hsub
      rw [show s'.pmm = pmm by rw [hs']]
      exact hrest.mono (by omega)
    · by_cases hj : j = i
      · rw [hj, htarget] at hg
        obtain rfl := Option.some.inj hg
        exact hvirt
      · rw [hother j hj] at hg
        exact h.tables j g hg

/-- A supervisor page can be mapped. -/
theorem vmmMapPage_supplied (h : s.Supplied P k) (hv : v.PageAligned) {f : U32}
    (hf : f.PageAligned) :
    ∃ s', vmmMapPage P.toPmmOps v f (ptePresent ||| pteWritable) s = (s', 0) ∧ s'.Supplied P k := by
  have hi : (pdIndex v).toNat < 1024 := by
    have hlt := v.isLt
    rw [pdIndex_toNat]
    omega
  obtain ⟨s₁, pt, hens, hpt, h₁⟩ := vmmEnsurePageTable_supplied h hi
  have hflags : ¬ (ptePresent ||| pteWritable) &&& pteUser ≠ 0#32 := by decide
  refine ⟨{ s₁ with
    table := update s₁.table pt (update (s₁.table pt) (ptIndex v)
      (entryFrame f ||| ((ptePresent ||| pteWritable) &&& 0xFFF#32))) }, ?_,
    ⟨h₁.frames, h₁.tables⟩⟩
  unfold vmmMapPage
  rw [if_neg (by simp [hv, hf])]
  simp only [hens, if_neg hpt, if_neg hflags]

/-- A fresh page can be mapped. -/
theorem mapFreshPage_supplied (h : s.Supplied P (k + 1)) (hv : v.PageAligned) :
    ∃ s' phys, mapFreshPage P v s = (s', phys, true) ∧ s'.Supplied P k := by
  obtain ⟨hne, hvirt, hrest⟩ := h.frames
  obtain ⟨halign, -, -⟩ := P.lawful.fresh s.pmm hne
  cases halloc : P.allocPage s.pmm with
  | mk f pmm =>
    rw [halloc] at hne hrest halign
    have h₁ : ({ s with pmm := pmm } : VmmState σ).Supplied P k := ⟨hrest, h.tables⟩
    obtain ⟨s', hres, h'⟩ := vmmMapPage_supplied h₁ hv halign
    refine ⟨s', f, ?_, h'⟩
    simp only [mapFreshPage, halloc, if_neg hne, hres]
    rfl

/-- Fresh pages can be mapped. -/
theorem mapFreshPages_supplied {start : U32} (hstart : start.PageAligned) (n : ℕ) {i : U32}
    (h : s.Supplied P (k + n)) :
    ∃ s', mapFreshPages P start n i s = (s', true) ∧ s'.Supplied P k := by
  induction n generalizing i s with
  | zero => exact ⟨s, rfl, h⟩
  | succ n ih =>
    obtain ⟨s₁, phys, hres, h₁⟩ := mapFreshPage_supplied (k := k + n) h (page_aligned hstart i)
    obtain ⟨s', hloop, h'⟩ := ih (i := i + 1#32) h₁
    refine ⟨s', ?_, h'⟩
    unfold mapFreshPages
    simp only [hres, if_true, hloop]

/-- The loop of `vmm_init` maps all pages. -/
theorem vmmInitLoop_supplied {mapEnd : U32} (n : ℕ) {addr : U32} {s' : VmmState σ} {ok : Bool}
    (h : s.Supplied P k) (haddr : addr.PageAligned)
    (hres : vmmInitLoop P.toPmmOps mapEnd n addr s = some (s', ok)) :
    ok = true ∧ s'.Supplied P k := by
  induction n generalizing addr s with
  | zero => exact absurd hres (by simp [vmmInitLoop])
  | succ n ih =>
    have hadd : ∀ x : U32, x.PageAligned → (addr + x).PageAligned := by
      intro x hx
      rw [U32.pageAligned_iff] at haddr hx ⊢
      rw [BitVec.toNat_add]
      omega
    obtain ⟨s₁, hres₁, h₁⟩ := vmmMapPage_supplied h haddr haddr
    obtain ⟨s₂, hres₂, h₂⟩ := vmmMapPage_supplied h₁ (hadd kernelVirtOffset (by decide)) haddr
    unfold vmmInitLoop at hres
    split at hres
    · simp only [hres₁, hres₂, ne_eq, not_true, if_false] at hres
      exact ih h₂ (hadd vmmPageSize (by decide)) hres
    · obtain ⟨rfl, rfl⟩ := Prod.mk.inj (Option.some.inj hres)
      exact ⟨rfl, h⟩

/-- **With frames for all page tables `vmm_init` succeeds**, and `vmm_unmap_identity` leaves enough for
the page tables it takes away. -/
theorem vmmInit_supplied (h : P.Supplies (2048 + k) p) (kernelEnd : U32) (table : U32 → U32 → U32) :
    ∃ s, vmmInit P.toPmmOps kernelEnd (vmmStatic table p) = some s ∧ s.ready ∧
      (vmmUnmapIdentity s).Supplied P k := by
  obtain ⟨s, hinit, -⟩ := vmmInit_boot P.lawful kernelEnd table p
  obtain ⟨hwf₀, -⟩ := vmmCleared_spec P.InUse table p
  have hpd₀ : ∀ i f, entryTarget ((vmmCleared table p).pd i) ≠ some f := by
    intro i f hf
    rw [vmmCleared_pd, entryTarget_zero] at hf
    exact absurd hf (by simp)
  have h₀ : (vmmCleared table p).Supplied P (1024 + k) := by
    refine ⟨h.mono ?_, fun i f hf => absurd hf (hpd₀ i f)⟩
    have hle := (vmmCleared table p).missing_card_le
    omega
  obtain ⟨s₁, ok, hloop, hcase⟩ := vmmInit_cases hinit
  obtain ⟨rfl, h₁⟩ := vmmInitLoop_supplied _ h₀ (by decide) hloop
  rcases hcase with ⟨hok, -⟩ | ⟨-, rfl⟩
  · exact absurd hok (by decide)
  refine ⟨_, hinit, rfl, ?_, fun i f hf => ?_⟩
  · rw [(vmmUnmapIdentity_rest _).2.2.2.2]
    refine h₁.frames.mono ?_
    have hle := VmmState.missing_card_le (vmmUnmapIdentity { s₁ with
      ready := true
      nextVaddr := (kernelVirtOffset + vmmMapEnd P.toPmmOps kernelEnd p + 0x400000#32 - 1#32) &&&
        ~~~ (0x400000#32 - 1#32)
      directMapEnd := kernelVirtOffset + vmmMapEnd P.toPmmOps kernelEnd p })
    omega
  · rw [vmmUnmapIdentity_target hf] at hf
    exact h₁.tables i f hf

/-- The page is mapped to a frame that was not in use in an earlier state of the allocator. -/
def VmmState.Backed (s : VmmState σ) (P : LawfulPmm σ) (p : σ) (v : U32) : Prop :=
  ∃ f, s.translate v = some f ∧ ¬ P.InUse p f

/-- Mapping a fresh page keeps pages backed, and backs its own. -/
theorem mapFreshPage_backed (h : s.WellFormed P.InUse) (hp : ∀ f, P.InUse p f → P.InUse s.pmm f)
    (v : U32) :
    ∃ s' phys ok, mapFreshPage P v s = (s', phys, ok) ∧ s'.WellFormed P.InUse ∧
      (∀ f, P.InUse p f → P.InUse s'.pmm f) ∧
      (∀ w, w.PageAligned → s.Backed P p w → s'.Backed P p w) ∧ (ok → s'.Backed P p v) := by
  obtain ⟨s', phys, ok, hres, hwf, hext, hcase⟩ := mapFreshPage_spec h v
  refine ⟨s', phys, ok, hres, hwf, fun f hf => hext.inUse f (hp f hf), ?_⟩
  rcases hcase with ⟨rfl, hentry⟩ | ⟨rfl, -, -, hv, hnot, -, -, htrans⟩
  · refine ⟨fun w _ hw => ?_, fun hf => absurd hf (by decide)⟩
    obtain ⟨f, hf, hu⟩ := hw
    refine ⟨f, ?_, hu⟩
    rw [VmmState.translate_eq, hentry, ← VmmState.translate_eq, hf]
  · have hself : s'.Backed P p v :=
      ⟨phys, (htrans v hv).trans (if_pos rfl), fun hu => hnot (hp phys hu)⟩
    refine ⟨fun w hw hb => ?_, fun _ => hself⟩
    by_cases hwv : w = v
    · rw [hwv]
      exact hself
    · obtain ⟨f, hf, hu⟩ := hb
      exact ⟨f, ((htrans w hw).trans (if_neg hwv)).trans hf, hu⟩

/-- The pages of a loop that succeeds are backed. -/
theorem mapFreshPages_backed {start : U32} (hstart : start.PageAligned) (n : ℕ) {i : U32}
    (h : s.WellFormed P.InUse) (hp : ∀ f, P.InUse p f → P.InUse s.pmm f) :
    ∃ s' ok, mapFreshPages P start n i s = (s', ok) ∧
      (∀ w, w.PageAligned → s.Backed P p w → s'.Backed P p w) ∧
      (ok → ∀ k < n, s'.Backed P p (start + (i + BitVec.ofNat 32 k) * vmmPageSize)) := by
  induction n generalizing i s with
  | zero => exact ⟨s, true, rfl, fun _ _ hw => hw, fun _ k hk => absurd hk (Nat.not_lt_zero k)⟩
  | succ n ih =>
    obtain ⟨s₁, phys, ok, hres, h₁, hp₁, hkeep₁, hself⟩ :=
      mapFreshPage_backed h hp (start + i * vmmPageSize)
    unfold mapFreshPages
    simp only [hres]
    cases ok with
    | false => exact ⟨s₁, false, rfl, hkeep₁, fun hf => absurd hf (by decide)⟩
    | true =>
      obtain ⟨s', ok, hloop, hkeep, hall⟩ := ih (i := i + 1#32) h₁ hp₁
      refine ⟨s', ok, by rw [if_pos rfl, hloop], fun w hw hb => hkeep w hw (hkeep₁ w hw hb),
        fun hok k hk => ?_⟩
      cases k with
      | zero =>
        rw [page_zero]
        exact hkeep _ (page_aligned hstart i) (hself rfl)
      | succ k =>
        rw [← page_succ]
        exact hall hok k (Nat.lt_of_succ_lt_succ hk)

end Supply

/-! ### A free list of frames -/

/-- Frames that can be given: aligned, not `NULL`, each once. -/
structure FreeFrames where
  /-- The free frames, the next one first. -/
  frames : List U32
  nodup : frames.Nodup
  good : ∀ f ∈ frames, f.PageAligned ∧ f ≠ 0#32

/-- Give the first free frame. -/
def FreeFrames.pop (p : FreeFrames) : U32 × FreeFrames :=
  match p with
  | ⟨[], hn, hg⟩ => (0#32, ⟨[], hn, hg⟩)
  | ⟨f :: l, hn, hg⟩ => (f, ⟨l, hn.of_cons, fun g hm => hg g (List.mem_cons_of_mem f hm)⟩)

/-- Take a frame back. -/
def FreeFrames.push (f : U32) (p : FreeFrames) : FreeFrames :=
  if h : (f.PageAligned ∧ f ≠ 0#32) ∧ ¬ p.frames.contains f then
    ⟨f :: p.frames,
      List.nodup_cons.mpr ⟨fun hm => h.2 (List.contains_iff_mem.mpr hm), p.nodup⟩, fun g hm => by
      rcases List.mem_cons.mp hm with rfl | hm
      · exact h.1
      · exact p.good g hm⟩
  else p

/-- **A free list as a physical allocator**, of a machine with the given answers about its memory. -/
def freeListPmm (totalPages managedBase : U32) : LawfulPmm FreeFrames where
  allocPage := FreeFrames.pop
  totalPages _ := totalPages
  managedBase _ := managedBase
  freePage := FreeFrames.push
  InUse p f := f ∉ p.frames
  lawful := by
    constructor
    · rintro ⟨l, hn, hg⟩ f hf
      cases l with
      | nil => exact hf
      | cons g l => exact fun hm => hf (List.mem_cons_of_mem g hm)
    · rintro ⟨l, hn, hg⟩ hne
      cases l with
      | nil => exact absurd rfl hne
      | cons g l =>
        exact ⟨(hg g List.mem_cons_self).1, fun hnot => hnot List.mem_cons_self,
          (List.nodup_cons.mp hn).1⟩
  free_mono := by
    intro p f g hf _ hne
    unfold FreeFrames.push
    split
    · exact fun hm => (List.mem_cons.mp hm).elim hne hf
    · exact hf

/-- A free list supplies as many frames as it has. -/
theorem freeListPmm_supplies (totalPages managedBase : U32) {k : ℕ} {p : FreeFrames}
    (hlen : k ≤ p.frames.length) (hvirt : ∀ f ∈ p.frames, physToVirt f ≠ 0#32) :
    (freeListPmm totalPages managedBase).Supplies k p := by
  induction k generalizing p with
  | zero => trivial
  | succ k ih =>
    obtain ⟨l, hn, hg⟩ := p
    cases l with
    | nil => exact absurd hlen (Nat.not_succ_le_zero k)
    | cons f l =>
      exact ⟨(hg f List.mem_cons_self).2, hvirt f List.mem_cons_self,
        ih (Nat.le_of_succ_le_succ hlen) fun g hm => hvirt g (List.mem_cons_of_mem f hm)⟩

/-- The frames from 16 MiB to 32 MiB. -/
def sampleList : List U32 := (List.range 4096).map fun k => BitVec.ofNat 32 (0x1000000 + k * 4096)

/-- The sample frames lie between 16 MiB and 32 MiB. -/
theorem mem_sampleList {f : U32} (hf : f ∈ sampleList) :
    f.PageAligned ∧ 0x1000000 ≤ f.toNat ∧ f.toNat < 0x2000000 := by
  obtain ⟨k, hk, rfl⟩ := List.mem_map.mp hf
  rw [List.mem_range] at hk
  rw [U32.pageAligned_iff, BitVec.toNat_ofNat]
  omega

/-- A machine whose allocator has these frames left. -/
def sampleFrames : FreeFrames where
  frames := sampleList
  nodup := by
    refine List.Nodup.map_on ?_ List.nodup_range
    intro a ha b hb heq
    rw [List.mem_range] at ha hb
    have hnat := congrArg BitVec.toNat heq
    rw [BitVec.toNat_ofNat, BitVec.toNat_ofNat] at hnat
    omega
  good := by
    intro f hf
    obtain ⟨halign, hge, -⟩ := mem_sampleList hf
    refine ⟨halign, ?_⟩
    rintro rfl
    exact absurd hge (by decide)

theorem sampleFrames_frames : sampleFrames.frames = sampleList := by rw [sampleFrames]

/-- There are 4096 of them. -/
theorem sampleList_length : sampleList.length = 4096 := by
  unfold sampleList
  exact (List.length_map ..).trans List.length_range

/-- They supply 4096 requests. -/
theorem sampleFrames_supplies (totalPages managedBase : U32) :
    (freeListPmm totalPages managedBase).Supplies 4096 sampleFrames := by
  apply freeListPmm_supplies
  · rw [sampleFrames_frames]
    exact sampleList_length.ge
  · intro f hf hzero
    rw [sampleFrames_frames] at hf
    obtain ⟨-, hge, hlt⟩ := mem_sampleList hf
    unfold physToVirt kernelVirtOffset at hzero
    bv_omega

end Microkernel.Vmm
