import Microkernel.Pmm.BuddyLayout
import Mathlib.Algebra.BigOperators.Group.Finset.Sigma
import Mathlib.Algebra.BigOperators.Ring.Finset
import Mathlib.Data.Nat.Count

/-! # What the page tags of the buddy allocator tell

`pmm_buddy_free_page` and `pmm_buddy_page_is_used` look at the `is_free` tag of one page. The tag is set
on the first page of a free block and nowhere else. The runs of this file free whatever address they
like, so blocks may overlap; the lists, the tags and the counters agree all the same.

* **`BuddyState.Sound`** — what is kept when callers free whatever page they like.
* **`pmmBuddyFreePage_rejects_iff`** — a double free is noticed exactly when the page is the first of a
  free block.
* **`pmmBuddy_reportsExactly_iff`** — `pmm_buddy_page_is_used` is exact exactly when every free block is
  one page.
* **`pmmBuddyInit_pages33`** — a zone that `pmm_buddy_init` builds, in which both go wrong.
-/

namespace Microkernel.Pmm

open Function (update)

/-! ### The backend and its callers -/

/-- `pmm_buddy_free_pages()`. -/
def pmmBuddyFreePages (s : BuddyState) : U32 := if s.ready then s.totalFree else 0#32

/-- `pmm_buddy_page_is_used(page_index)`. -/
def pmmBuddyPageIsUsed (pageIndex : U32) (s : BuddyState) : ℤ :=
  if ¬ s.ready then -1
  else if pageIndex ≥ s.totalPages then -1
  else if s.isFree pageIndex ≠ 0#8 then 0 else 1

/-- One call and its answer; `pmm_buddy_free_page` answers nothing. -/
def pmmBuddyCall (s : BuddyState) : PmmCall → Option (BuddyState × U32)
  | .allocPage => pmmBuddyAllocPage s
  | .freePage page => some (pmmBuddyFreePage page s, 0#32)

/-- The backend as a machine whose callers free whatever address they like. -/
def pmmBuddyMachine (s : BuddyState) : Machine BuddyState PmmCall U32 := ⟨s, pmmBuddyCall⟩

/-- The address is a page of the zone. -/
structure BuddyState.Manages (s : BuddyState) (page : U32) : Prop where
  ne_null : page ≠ 0#32
  aligned : page.PageAligned
  base_le : s.basePhys ≤ page
  lt_total : physToIndex s page < s.totalPages

/-- A page lies in a free block. -/
def BuddyState.InFreeBlock (s : BuddyState) (i : U32) : Prop := ∃ b, s.IsFreeBlock b ∧ i.toNat ∈ b

/-- A page is the first page of a free block. -/
def BuddyState.HeadsFreeBlock (s : BuddyState) (i : U32) : Prop :=
  ∃ b, s.IsFreeBlock b ∧ b.start = i.toNat

/-! ### The invariant of all runs -/

/-- The order tag of every page is that of a block of the zone that starts there. -/
def BuddyState.Ordered (s : BuddyState) : Prop :=
  ∀ i < s.totalPages, ∃ b : DyadicBlock, blockIdx b = i ∧ b.order ≤ buddyMaxOrder ∧
    b.stop ≤ s.totalPages.toNat ∧ s.order i = BitVec.ofNat 8 b.order

/-- **The invariant**: the statics hold the free blocks, and the order tags fit, whether the pages are
free or not. -/
structure BuddyState.Sound (s : BuddyState) (free : BuddyLists) : Prop where
  holds : s.Holds free
  ordered : s.Ordered

section Steps
variable {s : BuddyState} {free : BuddyLists} {b c : DyadicBlock}

/-- A block that is tagged keeps the order tags fitting. -/
theorem BuddyState.Ordered.update (h : s.Ordered) (hk : b.order ≤ buddyMaxOrder)
    (hstop : b.stop ≤ s.totalPages.toNat) {s' : BuddyState} (htotal : s'.totalPages = s.totalPages)
    (horder : s'.order = update s.order (blockIdx b) (BitVec.ofNat 8 b.order)) : s'.Ordered := by
  intro i hi
  rw [htotal] at hi ⊢
  rw [horder]
  by_cases heq : i = blockIdx b
  · subst heq
    exact ⟨b, rfl, hk, hstop, Function.update_self ..⟩
  · rw [Function.update_of_ne heq]
    exact h i hi

/-- The first pages of the free blocks are those that are tagged free. -/
theorem BuddyState.Holds.isFree_iff (h : s.Holds free) {i : U32} (hi : i < s.totalPages) :
    s.isFree i ≠ 0#8 ↔ ∃ b ∈ free.blocks, blockIdx b = i := by
  refine ⟨h.only i hi, ?_⟩
  rintro ⟨b, hb, rfl⟩
  rw [(h.tags b hb).1]
  decide

/-- Move one: a free block is taken off its list. -/
theorem BuddyState.Sound.take (h : s.Sound free) (hb : b ∈ free.blocks) :
    (buddyRemoveFree (blockIdx b) b.order s).Sound (free.erase b) :=
  ⟨buddyRemoveFree_holds h.holds hb, h.ordered⟩

/-- Move two: a block whose first page is not tagged free is put on its list. -/
theorem BuddyState.Sound.give (h : s.Sound free) (hk : b.order ≤ buddyMaxOrder)
    (hstop : b.stop ≤ s.totalPages.toNat) (hfree : s.isFree (blockIdx b) = 0#8) :
    (buddyAddFree (blockIdx b) b.order s).Sound (free.push b) := by
  refine ⟨buddyAddFree_holds h.holds hk hstop fun c hc heq => ?_, h.ordered.update hk hstop rfl rfl⟩
  exact (h.holds.isFree_iff (blockIdx_lt hstop)).mpr ⟨c, hc, heq⟩ hfree

/-- The merging loop keeps the invariant, and the first page of the merged block is not tagged free. -/
theorem buddyMerge_sound {n : ℕ} (hn : b.order + n = buddyMaxOrder) (h : s.Sound free)
    (hstop : b.stop ≤ s.totalPages.toNat) (hfree : s.isFree (blockIdx b) = 0#8) :
    ∃ s' free' c, buddyMerge n (blockIdx b) b.order s = (blockIdx c, c.order, s') ∧
      s'.Sound free' ∧ c.order ≤ buddyMaxOrder ∧ c.stop ≤ s'.totalPages.toNat ∧
      s'.isFree (blockIdx c) = 0#8 ∧ s.SameZone s' := by
  induction n generalizing s free b with
  | zero => exact ⟨s, free, b, rfl, h, by omega, hstop, hfree, .refl s⟩
  | succ n ih =>
    have hiff := h.holds.buddy_free_iff (by omega) hstop
    rw [buddyMerge, calcBuddyIndex_blockIdx]
    by_cases hout : blockIdx b.buddy ≥ s.totalPages
    · rw [if_pos hout]
      exact ⟨s, free, b, rfl, h, by omega, hstop, hfree, .refl s⟩
    rw [if_neg hout]
    by_cases htags : s.isFree (blockIdx b.buddy) = 0#8 ∨
        s.order (blockIdx b.buddy) ≠ BitVec.ofNat 8 b.order
    · rw [if_pos htags]
      exact ⟨s, free, b, rfl, h, by omega, hstop, hfree, .refl s⟩
    · rw [if_neg htags]
      rw [not_or, not_not] at htags
      have hbuddy := hiff.mpr ⟨BitVec.not_le.mp hout, htags⟩
      have htake := h.take hbuddy
      rw [DyadicBlock.buddy_order] at htake
      -- both halves are untagged now
      have huntagged : (buddyRemoveFree (blockIdx b.buddy) b.order s).isFree (blockIdx b.parent) = 0#8 := by
        show update _ _ _ _ = _
        by_cases heq : blockIdx b.parent = blockIdx b.buddy
        · rw [heq, Function.update_self]
        · have hstart : b.parent.start = b.start := by
            refine b.start_parent_cases.resolve_right fun hstart => heq ?_
            unfold blockIdx
            rw [hstart]
          have hidx : blockIdx b.parent = blockIdx b := by
            unfold blockIdx
            rw [hstart]
          rw [Function.update_of_ne heq, hidx]
          exact hfree
      obtain ⟨s', free', c, hres, hsound, hc, hcstop, hcfree, hsame⟩ :=
        ih (b := b.parent) (by rw [DyadicBlock.parent_order]; omega) htake
          (DyadicBlock.stop_parent_le hstop (h.holds.stop_le _ hbuddy)) huntagged
      rw [← blockIdx_parent, DyadicBlock.parent_order] at hres
      exact ⟨s', free', c, hres, hsound, hc, hcstop, hcfree, (buddyRemoveFree_sameZone ..).trans hsame⟩

/-- **`buddy_free`** of a page that is not tagged free keeps the invariant. -/
theorem buddyFree_sound (h : s.Sound free) (hk : b.order ≤ buddyMaxOrder)
    (hstop : b.stop ≤ s.totalPages.toNat) (hfree : s.isFree (blockIdx b) = 0#8) :
    ∃ free', (buddyFree (blockIdx b) b.order s).Sound free' ∧
      s.SameZone (buddyFree (blockIdx b) b.order s) := by
  obtain ⟨s', free', c, hres, hsound, hc, hcstop, hcfree, hsame⟩ :=
    buddyMerge_sound (n := buddyMaxOrder - b.order) (by omega) h hstop hfree
  unfold buddyFree
  rw [hres]
  exact ⟨_, hsound.give hc hcstop hcfree, hsame.trans (buddyAddFree_sameZone ..)⟩

/-- The splitting loop of a single page keeps the invariant: no smaller block is free, so none starts
where a half is put on its list. -/
theorem buddySplit_sound {k : ℕ} (hk : b.order = k) (hle : k ≤ buddyMaxOrder) (h : s.Sound free)
    (hstop : b.stop ≤ s.totalPages.toNat) (hfree : s.isFree (blockIdx b) = 0#8)
    (hlarge : ∀ c ∈ free.blocks, k ≤ c.order) :
    ∃ free', (buddySplit (blockIdx b) 0 k s).Sound free' ∧
      (buddySplit (blockIdx b) 0 k s).isFree (blockIdx b) = 0#8 ∧
      s.SameZone (buddySplit (blockIdx b) 0 k s) := by
  induction k generalizing s free b with
  | zero => exact ⟨free, h, hfree, .refl s⟩
  | succ k ih =>
    have hpos : 0 < b.order := by omega
    have hlower : b.lower.order = k := by rw [DyadicBlock.lower_order, hk, Nat.add_sub_cancel]
    -- the second half
    obtain ⟨d, hd⟩ : ∃ d, d = b.lower.buddy := ⟨_, rfl⟩
    have hdk : d.order = k := by rw [hd, DyadicBlock.buddy_order, hlower]
    have hstart : d.start = b.start + 2 ^ k := by
      rw [hd, DyadicBlock.start_buddy_lower hpos, hk, Nat.add_sub_cancel]
    have hidx : blockIdx b + 1#32 <<< k = blockIdx d := by
      rw [hd, ← blockIdx_buddy_lower hpos, hk, Nat.add_sub_cancel]
    have hpow : 0 < 2 ^ k := Nat.two_pow_pos _
    have hbstop : b.stop = b.start + (2 ^ k + 2 ^ k) := by
      unfold DyadicBlock.stop
      rw [hk, Nat.pow_succ, Nat.mul_two]
    have hdstop : d.stop = b.stop := by
      unfold DyadicBlock.stop at hbstop ⊢
      rw [hbstop, hstart, hdk]
      omega
    have hlstop : b.lower.stop ≤ s.totalPages.toNat := by
      unfold DyadicBlock.stop
      rw [DyadicBlock.start_lower hpos, hlower]
      omega
    have hne : blockIdx b ≠ blockIdx d := by
      intro heq
      have heq := congrArg BitVec.toNat heq
      rw [blockIdx_toNat hstop, blockIdx_toNat (hdstop.trans_le hstop)] at heq
      omega
    have hdfree : s.isFree (blockIdx d) = 0#8 := by
      by_contra htag
      obtain ⟨c, hc, heq⟩ := (h.holds.isFree_iff (blockIdx_lt (hdstop.trans_le hstop))).mp htag
      have heq := congrArg BitVec.toNat heq
      rw [blockIdx_toNat (h.holds.stop_le c hc), blockIdx_toNat (hdstop.trans_le hstop)] at heq
      -- a larger block that starts in the second half would have the first half in it
      have hin : d.start ∈ c := heq ▸ c.start_mem
      have hlt : d.order < c.order := by
        have := hlarge c hc
        omega
      have hparent := DyadicBlock.parent_le d.start_mem hin hlt
      rw [hd, DyadicBlock.parent_buddy, DyadicBlock.parent_lower hpos] at hparent
      have hbc := (DyadicBlock.mem_iff.mp (hparent _ b.start_mem)).1
      omega
    have hgive := h.give (by omega) (hdstop.trans_le hstop) hdfree
    rw [hdk] at hgive
    rw [buddySplit, if_pos (Nat.succ_pos k), hidx]
    have hbfree : (buddyAddFree (blockIdx d) k s).isFree (blockIdx b.lower) = 0#8 := by
      rw [blockIdx_lower hpos]
      exact (Function.update_of_ne hne ..).trans hfree
    obtain ⟨free', hsound, hfree', hsame⟩ := ih hlower (by omega) hgive hlstop hbfree fun c hc => by
      rcases (BuddyLists.mem_blocks_push (by omega)).mp hc with rfl | hc
      · exact hdk.ge
      · have := hlarge c hc
        omega
    rw [blockIdx_lower hpos] at hsound hfree' hsame
    exact ⟨free', hsound, hfree', (buddyAddFree_sameZone ..).trans hsame⟩

/-- **`buddy_alloc`** of a single page keeps the invariant. -/
theorem buddyAlloc_sound (h : s.Sound free) :
    ∃ s' idx free', buddyAlloc 0 s = some (s', idx) ∧ s'.Sound free' ∧ s.SameZone s' := by
  obtain ⟨-, hnone, hsome⟩ := buddyFindOrder_spec h.holds (Nat.zero_add (buddyMaxOrder + 1))
  generalize hcur : buddyFindOrder s (buddyMaxOrder + 1) 0 = cur at hnone hsome
  by_cases hgt : cur > buddyMaxOrder
  · refine ⟨s, 0xFFFFFFFF#32, free, ?_, h, .refl s⟩
    unfold buddyAlloc
    simp only [Nat.sub_zero, hcur, if_pos hgt]
  · have hk : cur ≤ buddyMaxOrder := by omega
    obtain ⟨b, hb, hbk, hpop⟩ := h.holds.listPop hk (hsome hk)
    have hstop := h.holds.stop_le b hb
    have htake := h.take hb
    obtain ⟨free', hsound, hfree, hsame⟩ := buddySplit_sound hbk hk htake hstop
      (Function.update_self ..) fun c hc => by
        have hc := ((BuddyLists.mem_blocks_erase (h.holds.nodup hb.1)).mp hc).1
        by_contra hlt
        have hmem := hc.2
        rw [hnone c.order (Nat.zero_le _) (by omega)] at hmem
        exact List.not_mem_nil hmem
    obtain ⟨t, ht⟩ : ∃ t, t = buddySplit (blockIdx b) 0 cur (buddyRemoveFree (blockIdx b) b.order s) :=
      ⟨_, rfl⟩
    rw [← ht] at hsound hfree hsame
    -- the page that is returned gets the order tag of a single page
    obtain ⟨d, hdidx, hd0, hdstop⟩ : ∃ d : DyadicBlock, blockIdx d = blockIdx b ∧ d.order = 0 ∧
        d.stop ≤ t.totalPages.toNat := by
      have hlt := blockIdx_lt hstop
      rw [BitVec.lt_def, blockIdx_toNat hstop] at hlt
      refine ⟨⟨b.start, 0⟩, by simp [blockIdx, DyadicBlock.start], rfl, ?_⟩
      rw [hsame.totalPages]
      show b.start * 2 ^ 0 + 2 ^ 0 ≤ s.totalPages.toNat
      rw [Nat.pow_zero, Nat.mul_one]
      exact hlt
    have htags : ∀ c ∈ free'.blocks, blockIdx c ≠ blockIdx b := fun c hc heq =>
      (hsound.holds.isFree_iff (hdidx ▸ blockIdx_lt hdstop)).mpr ⟨c, hc, heq⟩ hfree
    refine ⟨{ t with order := update t.order (blockIdx b) (BitVec.ofNat 8 0) }, blockIdx b, free', ?_,
      ⟨⟨hsound.holds.ring, hsound.holds.stop_le, fun c hc => ?_, hsound.holds.only, hsound.holds.count,
        hsound.holds.total⟩, ?_⟩, ((buddyRemoveFree_sameZone ..).trans hsame).trans ⟨rfl, rfl, rfl, rfl⟩⟩
    · unfold buddyAlloc
      simp only [Nat.sub_zero, hcur, if_neg hgt, hpop]
      rw [ht, hbk]
      rfl
    · refine ⟨(hsound.holds.tags c hc).1, ?_⟩
      show update _ _ _ _ = _
      rw [Function.update_of_ne (htags c hc)]
      exact (hsound.holds.tags c hc).2
    · exact hsound.ordered.update (b := d) (by omega) hdstop rfl (by rw [hdidx, hd0])

/-- `pmm_buddy_alloc_page` returns and keeps the invariant. -/
theorem pmmBuddyAllocPage_sound (h : s.Sound free) :
    ∃ s' answer free', pmmBuddyAllocPage s = some (s', answer) ∧ s'.Sound free' ∧ s.SameZone s' := by
  unfold pmmBuddyAllocPage
  split
  · exact ⟨s, _, free, rfl, h, .refl s⟩
  · split
    · exact ⟨s, _, free, rfl, h, .refl s⟩
    · obtain ⟨s', idx, free', hres, hsound, hsame⟩ := buddyAlloc_sound h
      rw [hres, Option.map_some]
      split
      · exact ⟨s', _, free', rfl, hsound, hsame⟩
      · exact ⟨s', _, free', rfl, hsound, hsame⟩

/-- The block that a free of an untagged page puts back. -/
theorem BuddyState.Ordered.block (h : s.Ordered) {i : U32} (hi : i < s.totalPages) :
    ∃ b : DyadicBlock, blockIdx b = i ∧ b.order = (s.order i).toNat ∧ b.order ≤ buddyMaxOrder ∧
      b.stop ≤ s.totalPages.toNat := by
  obtain ⟨b, hidx, hk, hstop, horder⟩ := h i hi
  refine ⟨b, hidx, ?_, hk, hstop⟩
  have hlt : b.order < 2 ^ 8 := lt_of_le_of_lt hk (by decide)
  rw [horder, BitVec.toNat_ofNat, Nat.mod_eq_of_lt hlt]

/-- **`pmm_buddy_free_page`** of any address keeps the invariant. -/
theorem pmmBuddyFreePage_sound (h : s.Sound free) (page : U32) :
    ∃ free', (pmmBuddyFreePage page s).Sound free' ∧ s.SameZone (pmmBuddyFreePage page s) := by
  unfold pmmBuddyFreePage
  split
  · exact ⟨free, h, .refl s⟩
  split
  · exact ⟨free, h, .refl s⟩
  split
  · exact ⟨free, h, .refl s⟩
  split
  · exact ⟨free, h, .refl s⟩
  rename_i hlt
  split
  · exact ⟨free, h, .refl s⟩
  rename_i hfree
  obtain ⟨b, hidx, horder, hk, hstop⟩ := h.ordered.block (BitVec.not_le.mp hlt)
  rw [← hidx, not_not] at hfree
  rw [← horder, ← hidx]
  exact buddyFree_sound h hk hstop hfree

end Steps

/-! ### Every run -/

section Runs
variable {s : BuddyState} {A : BuddyArea}

/-- The tiling tags the first pages of blocks of the zone. -/
theorem buddyTile_ordered {n : ℕ} {s s' : BuddyState} {idx : U32} (h : s.Ordered)
    (hmax : s.totalPages.toNat ≤ 2 ^ 20) (hres : buddyTile s.totalPages n idx s = some s') :
    s'.Ordered := by
  induction n generalizing s idx with
  | zero => cases hres
  | succ n ih =>
    rw [buddyTile] at hres
    by_cases hlt : idx < s.totalPages
    · rw [if_pos hlt] at hres
      obtain ⟨hk, hdvd, hfit, -⟩ := buddyLargestOrder_spec hmax hlt le_rfl
      generalize buddyLargestOrder s.totalPages idx buddyMaxOrder = o at hk hdvd hfit hres
      obtain ⟨b, hbo, hstart⟩ : ∃ b : DyadicBlock, b.order = o ∧ b.start = idx.toNat :=
        ⟨⟨idx.toNat / 2 ^ o, o⟩, rfl, Nat.div_mul_cancel hdvd⟩
      have hidx : blockIdx b = idx := by
        unfold blockIdx
        rw [hstart, BitVec.ofNat_toNat, BitVec.setWidth_eq]
      refine ih (s := buddyAddFree idx o s) (h.update (b := b) (by omega) ?_ rfl ?_) hmax hres
      · unfold DyadicBlock.stop
        rw [hstart, hbo]
        exact hfit
      · rw [hidx, hbo]
        rfl
    · rw [if_neg hlt] at hres
      obtain rfl := Option.some.inj hres
      exact h

/-- The initial state. -/
theorem buddyInitArea_sound (A : BuddyArea) (s₀ : BuddyState) :
    ∃ s free, buddyInitArea A s₀ = some s ∧ s.Sound free ∧ s.Serves A := by
  obtain ⟨tiled, free, hinit, hdesc, hbase, htotal, hready⟩ := buddyInitZone_spec A s₀
  have hordered : tiled.Ordered := by
    have hcleared : (A.cleared s₀).Ordered := by
      intro i hi
      have hlt := BitVec.lt_def.mp hi
      refine ⟨⟨i.toNat, 0⟩, by simp [blockIdx, DyadicBlock.start], Nat.zero_le _, ?_, if_pos hi⟩
      show i.toNat * 2 ^ 0 + 2 ^ 0 ≤ (A.cleared s₀).totalPages.toNat
      omega
    have htile : (buddyTile (A.cleared s₀).totalPages (A.managedPages.toNat + 1) 0#32
        (A.cleared s₀)).map (fun s => { s with ready := true }) = some tiled := hinit
    obtain ⟨t, ht, hready⟩ := Option.map_eq_some_iff.mp htile
    have htagged : t.Ordered := buddyTile_ordered hcleared A.pages_le ht
    rw [← hready]
    exact htagged
  have hsound : tiled.Sound free := ⟨hdesc.holds, hordered⟩
  have hserves : tiled.Serves A := ⟨hbase, htotal, hready⟩
  -- the self-test is made of calls
  obtain ⟨s₁, p₁, free₁, hres₁, h₁, hsame₁⟩ := pmmBuddyAllocPage_sound hsound
  obtain ⟨s₂, p₂, free₂, hres₂, h₂, hsame₂⟩ := pmmBuddyAllocPage_sound h₁
  obtain ⟨free₃, h₃, hsame₃⟩ := pmmBuddyFreePage_sound h₂ p₁
  obtain ⟨free₄, h₄, hsame₄⟩ := pmmBuddyFreePage_sound h₃ p₂
  have hnull : ∀ p t, (if p ≠ 0#32 then pmmBuddyFreePage p t else t) = pmmBuddyFreePage p t := by
    intro p t
    by_cases hp : p = 0#32
    · rw [if_neg (not_not.mpr hp)]
      unfold pmmBuddyFreePage
      rw [if_pos (.inr hp)]
    · rw [if_pos hp]
  have hself : ∃ s free, buddySelftest tiled = some s ∧ s.Sound free ∧ s.Serves A := by
    refine ⟨_, free₄, ?_, h₄, hserves.of_sameZone
      (((hsame₁.trans hsame₂).trans hsame₃).trans hsame₄)⟩
    unfold buddySelftest
    simp only [hres₁, hres₂, Option.bind_some, Option.map_some, hnull, ite_self]
  obtain ⟨s, free', hs, hfinal⟩ := hself
  refine ⟨s, free', ?_, hfinal⟩
  unfold buddyInitArea
  rw [hinit, Option.bind_some, hs]

/-- **Run lemma**: whatever is freed, the lists, tags and counters agree. -/
theorem pmmBuddyMachine_sound (A : BuddyArea) (s₀ : BuddyState) :
    ∃ s, buddyInitArea A s₀ = some s ∧
      ∀ calls, ∃ t answers, (pmmBuddyMachine s).run calls = some (t, answers) ∧
        t.Serves A ∧ ∃ free, t.Sound free := by
  obtain ⟨s, free, hs, hsound, hserves⟩ := buddyInitArea_sound A s₀
  refine ⟨s, hs, fun calls => ?_⟩
  refine Machine.run_invariant (M := pmmBuddyMachine s) (I := fun t => t.Serves A ∧ ∃ free, t.Sound free)
    ⟨hserves, free, hsound⟩ (fun t call ⟨ht, free, h⟩ => ?_) calls
  cases call with
  | allocPage =>
    obtain ⟨t', answer, free', hres, h', hsame⟩ := pmmBuddyAllocPage_sound h
    exact ⟨t', answer, hres, ht.of_sameZone hsame, free', h'⟩
  | freePage page =>
    obtain ⟨free', h', hsame⟩ := pmmBuddyFreePage_sound h page
    exact ⟨_, _, rfl, ht.of_sameZone hsame, free', h'⟩

end Runs

/-! ### Double frees -/

section Frees
variable {s : BuddyState} {free : BuddyLists} {A : BuddyArea} {page i : U32}

/-- The merging loop adds the pages of the block, less those of the buddies it takes off their lists. -/
theorem buddyMerge_totalFree (n : ℕ) (idx : U32) (order : ℕ) (s : BuddyState) :
    (buddyMerge n idx order s).2.2.totalFree + 1#32 <<< (buddyMerge n idx order s).2.1 =
      s.totalFree + 1#32 <<< order := by
  induction n generalizing idx order s with
  | zero => rfl
  | succ n ih =>
    have hdouble : 1#32 <<< (order + 1) = 1#32 <<< order + 1#32 <<< order := by
      rw [one_shiftLeft, one_shiftLeft, ← BitVec.ofNat_add, Nat.pow_succ, Nat.mul_two]
    rw [buddyMerge]
    split
    · rfl
    · split
      · rfl
      · rw [ih, hdouble]
        show s.totalFree - 1#32 <<< order + (1#32 <<< order + 1#32 <<< order) = _
        rw [← BitVec.add_assoc, BitVec.sub_add_cancel]

/-- A free of a page that is not tagged free changes the counter. -/
theorem buddyFree_totalFree (idx : U32) (order : ℕ) (s : BuddyState) :
    (buddyFree idx order s).totalFree = s.totalFree + 1#32 <<< order :=
  buddyMerge_totalFree (buddyMaxOrder - order) idx order s

/-- **`pmm_buddy_free_page` leaves the zone as it is exactly when the page is tagged free.** -/
theorem BuddyState.Sound.free_eq_iff (h : s.Sound free) (hready : s.ready = true)
    (hpage : s.Manages page) :
    pmmBuddyFreePage page s = s ↔ s.isFree (physToIndex s page) ≠ 0#8 := by
  have hdef : pmmBuddyFreePage page s =
      if s.isFree (physToIndex s page) ≠ 0#8 then s
      else buddyFree (physToIndex s page) (s.order (physToIndex s page)).toNat s := by
    have haligned : page &&& (pageSize - 1#32) = 0#32 := hpage.aligned
    unfold pmmBuddyFreePage
    rw [if_neg (by simp [hready, hpage.ne_null]), if_neg (not_not.mpr haligned), if_neg (BitVec.not_lt.mpr hpage.base_le), if_neg (BitVec.not_le.mpr hpage.lt_total)]
  rw [hdef]
  constructor
  · intro heq hfree
    rw [if_neg (not_not.mpr hfree)] at heq
    have htotal := congrArg BuddyState.totalFree heq
    rw [buddyFree_totalFree] at htotal
    obtain ⟨b, -, horder, hk, -⟩ := h.ordered.block hpage.lt_total
    rw [← horder, one_shiftLeft, BitVec.add_right_eq_self, ← BitVec.toNat_inj, BitVec.toNat_ofNat,
      Nat.mod_eq_of_lt (Nat.pow_lt_pow_right (by decide) (lt_of_le_of_lt hk (by decide)))] at htotal
    exact absurd htotal (Nat.two_pow_pos _).ne'
  · exact fun hfree => if_pos hfree

/-- The pages that are tagged free. -/
theorem BuddyState.Holds.isFree_iff_heads (h : s.Holds free) (hi : i < s.totalPages) :
    s.isFree i ≠ 0#8 ↔ s.HeadsFreeBlock i := by
  rw [h.isFree_iff hi]
  constructor
  · rintro ⟨b, hb, rfl⟩
    exact ⟨b, h.isFreeBlock_iff.mpr hb, (blockIdx_toNat (h.stop_le b hb)).symm⟩
  · rintro ⟨b, hb, hstart⟩
    refine ⟨b, h.isFreeBlock_iff.mp hb, ?_⟩
    unfold blockIdx
    rw [hstart, BitVec.ofNat_toNat, BitVec.setWidth_eq]

/-- **A double free is rejected exactly when the page is the first one of a free block.** Whatever was
allocated and freed before, `pmm_buddy_free_page` of a managed page changes nothing exactly when a free
block starts there: so a page inside a free block is freed once more. -/
theorem pmmBuddyFreePage_rejects_iff (A : BuddyArea) (s₀ : BuddyState) :
    ∃ s, buddyInitArea A s₀ = some s ∧
      ∀ calls, ∃ t answers, (pmmBuddyMachine s).run calls = some (t, answers) ∧
        ∀ page, t.Manages page → t.InFreeBlock (physToIndex t page) →
          (pmmBuddyFreePage page t = t ↔ t.HeadsFreeBlock (physToIndex t page)) := by
  obtain ⟨s, hs, hruns⟩ := pmmBuddyMachine_sound A s₀
  refine ⟨s, hs, fun calls => ?_⟩
  obtain ⟨t, answers, hrun, hserves, free, h⟩ := hruns calls
  refine ⟨t, answers, hrun, fun page hpage _ => ?_⟩
  rw [h.free_eq_iff hserves.ready hpage, h.holds.isFree_iff_heads hpage.lt_total]

/-- Memory for 33 pages from 1 MiB on. -/
def pages33 : List Mb2MmapEntry := [⟨0x100000#64, 0x21000#64, 1#32⟩]

/-- The statics before `init`, in a memory of zeros. -/
def blankBuddy : BuddyState where
  basePhys := 0#32
  totalPages := 0#32
  pages := 0#32
  nodes _ := ⟨.null, .null⟩
  order _ := 0#8
  isFree _ := 0#8
  freeCount _ := 0#32
  totalFree := 0#32
  ready := false

/-- The free block that the tags of its first page tell of. -/
theorem BuddyState.Sound.isFreeBlock_of_tags (h : s.Sound free) (hi : i < s.totalPages)
    (hfree : s.isFree i ≠ 0#8) {k : ℕ} (hk : k ≤ buddyMaxOrder)
    (horder : s.order i = BitVec.ofNat 8 k) :
    ∃ b, s.IsFreeBlock b ∧ b.order = k ∧ b.start = i.toNat := by
  obtain ⟨b, hb, rfl⟩ := (h.holds.isFree_iff hi).mp hfree
  refine ⟨b, h.holds.isFreeBlock_iff.mpr hb, ?_, (blockIdx_toNat (h.holds.stop_le b hb)).symm⟩
  have htag := (h.holds.tags b hb).2
  rwa [horder, ofNat_order_inj hk hb.1, eq_comm] at htag

/-- **The zone of 30 pages** that `pmm_buddy_init` makes of this memory: the descriptors take the page at
`0x102000`, and the first 16 pages are one free block. -/
theorem pmmBuddyInit_pages33 : ∃ A s, A.managedStart = 0x103000#32 ∧ A.managedPages = 30#32 ∧
    pmmBuddyInit pages33 smallKernel smallInfo blankBuddy = some s ∧ s.Serves A ∧
    s.totalFree = 30#32 ∧ s.InFreeBlock 1#32 := by
  obtain ⟨A, -, hstart, hpages, hinit⟩ := @pmmBuddyInit_eq pages33 smallKernel smallInfo
    (⟨0x102000#32, 1#32, 0x103000#32, 0x121000#32, 30#32⟩) rfl blankBuddy
  obtain ⟨s, free, hs, h, hserves⟩ := buddyInitArea_sound A blankBuddy
  rw [← hinit] at hs
  have htags : (pmmBuddyInit pages33 smallKernel smallInfo blankBuddy).map
      (fun s => (s.isFree 0#32, s.order 0#32, s.totalFree)) = some (1#8, 4#8, 30#32) := by decide +kernel
  rw [hs, Option.map_some, Option.some_inj] at htags
  simp only [Prod.mk.injEq] at htags
  obtain ⟨hfree, horder, htotal⟩ := htags
  have hzone : s.totalPages = 30#32 := hserves.totalPages.trans hpages
  obtain ⟨b, hb, hk, hfirst⟩ := h.isFreeBlock_of_tags (i := 0#32) (k := 4) (by rw [hzone]; decide)
    (by rw [hfree]; decide) (by decide) horder
  refine ⟨A, s, hstart, hpages, hs, hserves, htotal, b, hb, ?_⟩
  rw [DyadicBlock.mem_iff]
  unfold DyadicBlock.stop
  rw [hfirst, hk]
  decide

/-- The second page of the first block of this fresh zone is free; to free it puts it on a list of its own,
and 31 of the 30 pages are free. -/
theorem pmmBuddyFreePage_rejects_refuted :
    ∃ s, pmmBuddyInit pages33 smallKernel smallInfo blankBuddy = some s ∧
      s.Manages 0x104000#32 ∧ s.InFreeBlock (physToIndex s 0x104000#32) ∧
      s.totalFree = 30#32 ∧ (pmmBuddyFreePage 0x104000#32 s).totalFree = 31#32 := by
  obtain ⟨A, s, hstart, hpages, hs, hserves, htotal, hin⟩ := pmmBuddyInit_pages33
  have hbase : s.basePhys = 0x103000#32 := hserves.basePhys.trans hstart
  have hindex : physToIndex s 0x104000#32 = 1#32 := by
    unfold physToIndex
    rw [hbase]
    decide
  have hfreed : (pmmBuddyInit pages33 smallKernel smallInfo blankBuddy).map
      (fun s => (pmmBuddyFreePage 0x104000#32 s).totalFree) = some 31#32 := by decide +kernel
  rw [hs, Option.map_some, Option.some_inj] at hfreed
  refine ⟨s, hs, ⟨by decide, by decide, by rw [hbase]; decide, ?_⟩, hindex ▸ hin, htotal, hfreed⟩
  rw [hindex, hserves.totalPages, hpages]
  decide

end Frees

/-! ### The reports -/

/-- **What `pmm_buddy_page_is_used` is to report**: `0` for the pages in free blocks, `1` for the others,
so that the zeros are as many as the free pages. -/
structure BuddyState.ReportsExactly (s : BuddyState) : Prop where
  zero_iff : ∀ i < s.totalPages, pmmBuddyPageIsUsed i s = 0 ↔ s.InFreeBlock i
  one_iff : ∀ i < s.totalPages, pmmBuddyPageIsUsed i s = 1 ↔ ¬ s.InFreeBlock i
  count : Nat.count (fun i => pmmBuddyPageIsUsed (BitVec.ofNat 32 i) s = 0) s.totalPages.toNat =
    (pmmBuddyFreePages s).toNat

section Reports
variable {s : BuddyState} {free : BuddyLists} {A : BuddyArea} {i : U32}

/-- The report is the tag. -/
theorem pmmBuddyPageIsUsed_eq (hready : s.ready = true) (hi : i < s.totalPages) :
    pmmBuddyPageIsUsed i s = if s.isFree i ≠ 0#8 then 0 else 1 := by
  unfold pmmBuddyPageIsUsed
  rw [if_neg (by simp [hready]), if_neg (BitVec.not_le.mpr hi)]

/-- The number of free blocks. -/
def BuddyLists.size (free : BuddyLists) : ℕ :=
  ∑ k ∈ Finset.range (buddyMaxOrder + 1), (free k).length

/-- There is one tagged page for each free block. -/
theorem BuddyState.Holds.count_isFree (h : s.Holds free) :
    Nat.count (fun i => s.isFree (BitVec.ofNat 32 i) ≠ 0#8) s.totalPages.toNat = free.size := by
  rw [Nat.count_eq_card_filter_range]
  have hsigma : free.size =
      ((Finset.range (buddyMaxOrder + 1)).sigma fun k => (free k).toFinset).card := by
    rw [Finset.card_sigma]
    refine Finset.sum_congr rfl fun k hk => ?_
    rw [List.toFinset_card_of_nodup (h.nodup (by simpa [Nat.lt_succ_iff] using hk))]
  have hmem : ∀ x ∈ (Finset.range (buddyMaxOrder + 1)).sigma fun k => (free k).toFinset,
      (⟨x.2, x.1⟩ : DyadicBlock) ∈ free.blocks := by
    intro x hx
    simp only [Finset.mem_sigma, Finset.mem_range, Nat.lt_succ_iff, List.mem_toFinset] at hx
    exact hx
  rw [hsigma]
  symm
  -- a block corresponds to its first page, which is the one that carries the tag
  refine Finset.card_bij (fun x _ => (⟨x.2, x.1⟩ : DyadicBlock).start) ?_ ?_ ?_
  · intro x hx
    have hb := hmem x hx
    have hlt := BitVec.lt_def.mp (blockIdx_lt (h.stop_le _ hb))
    rw [blockIdx_toNat (h.stop_le _ hb)] at hlt
    rw [Finset.mem_filter, Finset.mem_range]
    refine ⟨hlt, ?_⟩
    show s.isFree (blockIdx _) ≠ 0#8
    rw [(h.tags _ hb).1]
    decide
  · intro x hx y hy heq
    have hxy := h.inj (hmem x hx) (hmem y hy) (congrArg (BitVec.ofNat 32) heq)
    obtain ⟨hn, hk⟩ := DyadicBlock.mk.inj hxy
    exact Sigma.ext hk (heq_of_eq hn)
  · intro n hn
    rw [Finset.mem_filter, Finset.mem_range] at hn
    have hlt := s.totalPages.isLt
    have hto : (BitVec.ofNat 32 n).toNat = n := Nat.mod_eq_of_lt (by omega)
    obtain ⟨b, hb, hidx⟩ := h.only (BitVec.ofNat 32 n) (by rw [BitVec.lt_def, hto]; exact hn.1) hn.2
    refine ⟨⟨b.order, b.number⟩, ?_, ?_⟩
    · simp only [Finset.mem_sigma, Finset.mem_range, Nat.lt_succ_iff, List.mem_toFinset]
      exact hb
    · have hstart := congrArg BitVec.toNat hidx
      rwa [blockIdx_toNat (h.stop_le b hb), hto] at hstart

/-- The blocks have as many pages as there are blocks exactly when they are single pages. -/
theorem BuddyLists.pages_eq_size_iff (free : BuddyLists) :
    free.size = free.pages ↔ ∀ b ∈ free.blocks, b.order = 0 := by
  unfold BuddyLists.size BuddyLists.pages
  rw [Finset.sum_eq_sum_iff_of_le fun k _ => Nat.le_mul_of_pos_left _ (Nat.two_pow_pos k)]
  constructor
  · intro hall b hb
    have heq := hall b.order (Finset.mem_range.mpr (Nat.lt_succ_of_le hb.1))
    have hpos := List.length_pos_of_mem hb.2
    rw [eq_comm, Nat.mul_eq_right hpos.ne', Nat.pow_eq_one] at heq
    simpa using heq
  · intro hall k hk
    cases hlist : free k with
    | nil => rfl
    | cons n l =>
      have hk0 : k = 0 :=
        hall ⟨n, k⟩ ⟨Nat.lt_succ_iff.mp (Finset.mem_range.mp hk), by show n ∈ free k; simp [hlist]⟩
      rw [hk0, Nat.pow_zero, Nat.one_mul]

/-- The blocks have at most `2 ^ 10` pages each. -/
theorem BuddyLists.pages_le (free : BuddyLists) : free.pages ≤ 2 ^ buddyMaxOrder * free.size := by
  unfold BuddyLists.size BuddyLists.pages
  rw [Finset.mul_sum]
  refine Finset.sum_le_sum fun k hk => Nat.mul_le_mul_right _ ?_
  exact Nat.pow_le_pow_right (by decide) (Nat.lt_succ_iff.mp (Finset.mem_range.mp hk))

/-- **The reports are exact exactly when every free block is a single page.** -/
theorem BuddyState.Sound.reportsExactly_iff (h : s.Sound free) (hserves : s.Serves A) :
    s.ReportsExactly ↔ ∀ b, s.IsFreeBlock b → b.order = 0 := by
  have hblocks : (∀ b, s.IsFreeBlock b → b.order = 0) ↔ ∀ b ∈ free.blocks, b.order = 0 :=
    forall_congr' fun b => by rw [h.holds.isFreeBlock_iff]
  have hused : ∀ i < s.totalPages, pmmBuddyPageIsUsed i s = 0 ↔ s.isFree i ≠ 0#8 := by
    intro i hi
    rw [pmmBuddyPageIsUsed_eq hserves.ready hi]
    simp
  -- as many zeros as free blocks
  have hcount : Nat.count (fun i => pmmBuddyPageIsUsed (BitVec.ofNat 32 i) s = 0) s.totalPages.toNat =
      free.size := by
    rw [← h.holds.count_isFree, Nat.count_eq_card_filter_range, Nat.count_eq_card_filter_range]
    congr 1
    refine Finset.filter_congr fun n hn => hused _ ?_
    have hlt := s.totalPages.isLt
    rw [Finset.mem_range] at hn
    rw [BitVec.lt_def, BitVec.toNat_ofNat, Nat.mod_eq_of_lt (by omega)]
    exact hn
  have htotal : (pmmBuddyFreePages s).toNat = free.pages := by
    have hsize : free.size ≤ s.totalPages.toNat := by
      rw [← h.holds.count_isFree]
      exact Nat.count_le _
    have hpages := free.pages_le
    have hmax := A.pages_le
    rw [← hserves.totalPages] at hmax
    unfold pmmBuddyFreePages
    rw [if_pos hserves.ready, h.holds.total, BitVec.toNat_ofNat]
    refine Nat.mod_eq_of_lt (lt_of_le_of_lt (hpages.trans (Nat.mul_le_mul_left _ (hsize.trans hmax))) ?_)
    decide
  rw [hblocks, ← free.pages_eq_size_iff]
  constructor
  · intro hexact
    rw [← hcount, ← htotal]
    exact hexact.count
  · intro heq
    have hone := free.pages_eq_size_iff.mp heq
    have hin : ∀ i < s.totalPages, s.isFree i ≠ 0#8 ↔ s.InFreeBlock i := by
      intro i hi
      rw [h.holds.isFree_iff_heads hi]
      refine exists_congr fun b => and_congr_right fun hb => ?_
      have hb0 := hone b (h.holds.isFreeBlock_iff.mp hb)
      rw [DyadicBlock.mem_iff]
      unfold DyadicBlock.stop
      rw [hb0]
      omega
    refine ⟨fun i hi => (hused i hi).trans (hin i hi), fun i hi => ?_, ?_⟩
    · rw [← hin i hi, pmmBuddyPageIsUsed_eq hserves.ready hi]
      simp
    · rw [hcount, htotal, heq]

/-- **`pmm_buddy_page_is_used` reports exactly only when all free blocks are single pages**, in every state
that any calls lead to. -/
theorem pmmBuddy_reportsExactly_iff (A : BuddyArea) (s₀ : BuddyState) :
    ∃ s, buddyInitArea A s₀ = some s ∧
      ∀ calls, ∃ t answers, (pmmBuddyMachine s).run calls = some (t, answers) ∧
        (t.ReportsExactly ↔ ∀ b, t.IsFreeBlock b → b.order = 0) := by
  obtain ⟨s, hs, hruns⟩ := pmmBuddyMachine_sound A s₀
  refine ⟨s, hs, fun calls => ?_⟩
  obtain ⟨t, answers, hrun, hserves, free, h⟩ := hruns calls
  exact ⟨t, answers, hrun, h.reportsExactly_iff hserves⟩

/-- The second page of the first block of the fresh zone of 30 pages is free and reported as used. -/
theorem pmmBuddy_reportsExactly_refuted :
    ∃ s, pmmBuddyInit pages33 smallKernel smallInfo blankBuddy = some s ∧
      s.InFreeBlock 1#32 ∧ pmmBuddyPageIsUsed 1#32 s = 1 ∧ ¬ s.ReportsExactly := by
  obtain ⟨A, s, -, hpages, hs, hserves, -, hin⟩ := pmmBuddyInit_pages33
  have hused : (pmmBuddyInit pages33 smallKernel smallInfo blankBuddy).map
      (fun s => pmmBuddyPageIsUsed 1#32 s) = some 1 := by decide +kernel
  rw [hs, Option.map_some, Option.some_inj] at hused
  refine ⟨s, hs, hin, hused, fun hexact => (hexact.one_iff 1#32 ?_).mp hused hin⟩
  rw [hserves.totalPages, hpages]
  decide

end Reports

end Microkernel.Pmm
