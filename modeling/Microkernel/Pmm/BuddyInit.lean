import Microkernel.Pmm.BuddyOps

/-! # The initialised buddy allocator

The greedy tiling of `pmm_buddy_init` builds the maximal blocks of the zone, and its self-test leaves no
block allocated.

* **`BuddyArea`** — where the page descriptors and the zone lie, as `pmm_buddy_init` has decided it:
  inside the address space, and not at address 0.
* **`TiledUpTo`, `buddyTile_spec`** — the loop invariant: up to page `p` the maximal blocks are on their
  lists.
* **`buddyInitZone_spec`** — the state before the self-test.
* **`Serves`** — what every later state keeps of it: the zone is that of the area, and the backend is
  ready.
-/

namespace Microkernel.Pmm

open DyadicBlock (Tiles Coalesced Maximal GreedyPoint)

/-- Where the page descriptors and the zone lie. -/
structure BuddyArea where
  /-- The page descriptors start here. -/
  regionStart : U32
  /-- The zone starts here. -/
  managedStart : U32
  /-- So many pages are managed. -/
  managedPages : U32
  start_aligned : managedStart.PageAligned
  start_ne_zero : managedStart ≠ 0#32
  /-- The zone ends in the address space. -/
  fits : managedStart.toNat + managedPages.toNat * 4096 ≤ 2 ^ 32

/-! ### The tiling -/

/-- The inner loop finds the largest order that fits. -/
theorem buddyLargestOrder_spec {n idx : U32} (hn : n.toNat ≤ 2 ^ 20) (hlt : idx < n) {o : ℕ}
    (ho : o ≤ buddyMaxOrder) :
    buddyLargestOrder n idx o ≤ o ∧ 2 ^ buddyLargestOrder n idx o ∣ idx.toNat ∧
      idx.toNat + 2 ^ buddyLargestOrder n idx o ≤ n.toNat ∧
      ∀ k, buddyLargestOrder n idx o < k → k ≤ o → ¬ (2 ^ k ∣ idx.toNat ∧ idx.toNat + 2 ^ k ≤ n.toNat) := by
  rw [BitVec.lt_def] at hlt
  induction o with
  | zero =>
    rw [buddyLargestOrder]
    exact ⟨le_rfl, one_dvd _, hlt, fun k h₁ h₂ => absurd h₁ (by omega)⟩
  | succ o ih =>
    -- what the two comparisons say of numbers
    have hpow : 2 ^ (o + 1) ≤ 2 ^ 10 := Nat.pow_le_pow_right (by decide) ho
    have hpos : 0 < 2 ^ (o + 1) := Nat.two_pow_pos _
    have hblock : (1#32 <<< (o + 1)).toNat = 2 ^ (o + 1) := by
      rw [one_shiftLeft, BitVec.toNat_ofNat, Nat.mod_eq_of_lt (by omega)]
    have hmask : 1#32 <<< (o + 1) - 1#32 = BitVec.ofNat 32 (2 ^ (o + 1) - 1) := by
      rw [one_shiftLeft, BitVec.ofNat_sub_ofNat_of_le _ _ (by decide) hpos]
    have hdvd : idx &&& (1#32 <<< (o + 1) - 1#32) = 0#32 ↔ 2 ^ (o + 1) ∣ idx.toNat := by
      rw [hmask, ← BitVec.toNat_inj, U32.toNat_and_low _ _ (ho.trans (by decide)),
        Nat.dvd_iff_mod_eq_zero]
      rfl
    have hfits : idx + 1#32 <<< (o + 1) ≤ n ↔ idx.toNat + 2 ^ (o + 1) ≤ n.toNat := by
      rw [BitVec.le_def, BitVec.toNat_add, hblock, Nat.mod_eq_of_lt (by omega)]
    have hcond := and_congr hdvd hfits
    rw [buddyLargestOrder]
    by_cases hc : 2 ^ (o + 1) ∣ idx.toNat ∧ idx.toNat + 2 ^ (o + 1) ≤ n.toNat
    · rw [if_pos (hcond.mpr hc)]
      exact ⟨le_rfl, hc.1, hc.2, fun k h₁ h₂ => absurd h₁ (by omega)⟩
    · rw [if_neg (mt hcond.mp hc)]
      obtain ⟨hle, hd, hf, hmax⟩ := ih (by omega)
      refine ⟨by omega, hd, hf, fun k h₁ h₂ => ?_⟩
      rcases Nat.eq_or_lt_of_le h₂ with rfl | h₂
      exacts [hc, hmax k h₁ (by omega)]

/-- What holds when the tiling has come to page `p`. -/
structure BuddyState.TiledUpTo (s : BuddyState) (free : BuddyLists) (p : ℕ) : Prop where
  holds : s.Holds free
  maximal : ∀ b ∈ free.blocks, Maximal buddyMaxOrder {q | q < s.totalPages.toNat} b
  covers : ∀ q < p, ∃ b ∈ free.blocks, q ∈ b
  stop_le : ∀ b ∈ free.blocks, b.stop ≤ p
  point : GreedyPoint buddyMaxOrder s.totalPages.toNat p
  pages : free.pages = p
  le : p ≤ s.totalPages.toNat

/-- The tiling of the whole zone is the initial state. -/
theorem BuddyState.TiledUpTo.describes {s : BuddyState} {free : BuddyLists}
    (h : s.TiledUpTo free s.totalPages.toNat) : s.Describes free [] [] := by
  obtain ⟨htiles, hco⟩ := Tiles.of_maximal h.maximal fun p hp => h.covers p hp
  refine ⟨h.holds, ?_, fun _ _ => List.not_mem_nil, List.nodup_nil, fun b hb => ?_, hco, ?_, fun b hb => ?_⟩
  · simpa using htiles
  · exact absurd hb List.not_mem_nil
  · simpa using h.pages
  · exact absurd hb List.not_mem_nil

/-- **The tiling loop** puts the maximal blocks of the zone into the free lists. -/
theorem buddyTile_spec {n : ℕ} :
    ∀ {s : BuddyState} {free : BuddyLists} {idx : U32}, s.TiledUpTo free idx.toNat →
      s.totalPages.toNat ≤ 2 ^ 20 → s.totalPages.toNat < idx.toNat + n →
      ∃ s' free', buddyTile s.totalPages n idx s = some s' ∧
        s'.TiledUpTo free' s'.totalPages.toNat ∧ s.SameZone s' := by
  induction n with
  | zero => exact fun h _ hn => absurd h.le (by omega)
  | succ n ih =>
    intro s free idx h hmax hn
    rw [buddyTile]
    by_cases hlt : idx < s.totalPages
    · rw [if_pos hlt]
      obtain ⟨ho, hdvd, hfit, hlargest⟩ := buddyLargestOrder_spec hmax hlt le_rfl
      generalize buddyLargestOrder s.totalPages idx buddyMaxOrder = o at ho hdvd hfit hlargest
      -- the block that is placed
      have hpos : 0 < 2 ^ o := Nat.two_pow_pos _
      obtain ⟨b, hbo, hstart, hblock⟩ : ∃ b : DyadicBlock, b.order = o ∧ b.start = idx.toNat ∧
          Maximal buddyMaxOrder {q | q < s.totalPages.toNat} b :=
        ⟨⟨idx.toNat / 2 ^ o, o⟩, rfl, Nat.div_mul_cancel hdvd, h.point.maximal hdvd hfit hlargest ho⟩
      have hstop : b.stop = idx.toNat + 2 ^ o := by
        unfold DyadicBlock.stop
        rw [hstart, hbo]
      have hidx : blockIdx b = idx := by
        unfold blockIdx
        rw [hstart, BitVec.ofNat_toNat, BitVec.setWidth_eq]
      have hpoint := h.point.next hdvd hlargest
      have hkb : b.order ≤ buddyMaxOrder := by omega
      have hnext : (idx + 1#32 <<< o).toNat = idx.toNat + 2 ^ o := by
        rw [one_shiftLeft, BitVec.toNat_add, BitVec.toNat_ofNat, Nat.add_mod_mod,
          Nat.mod_eq_of_lt (by omega)]
      have hadd : (buddyAddFree idx o s).TiledUpTo (free.push b) (idx + 1#32 <<< o).toNat := by
        rw [hnext]
        subst hidx hbo
        constructor
        · refine buddyAddFree_holds h.holds hkb (by omega) fun c hc heq => ?_
          -- the blocks placed before end in front of this one
          have heq := congrArg BitVec.toNat heq
          have hcstop := h.stop_le c hc
          have hcpos : 0 < 2 ^ c.order := Nat.two_pow_pos _
          rw [blockIdx_toNat (h.holds.stop_le c hc)] at heq
          unfold DyadicBlock.stop at hcstop
          omega
        · intro c hc
          rcases (BuddyLists.mem_blocks_push hkb).mp hc with rfl | hc
          exacts [hblock, h.maximal c hc]
        · intro q hq
          by_cases hlt' : q < (blockIdx b).toNat
          · obtain ⟨c, hc, hqc⟩ := h.covers q hlt'
            exact ⟨c, (BuddyLists.mem_blocks_push hkb).mpr (.inr hc), hqc⟩
          · refine ⟨b, (BuddyLists.mem_blocks_push hkb).mpr (.inl rfl), ?_⟩
            rw [DyadicBlock.mem_iff]
            omega
        · intro c hc
          rcases (BuddyLists.mem_blocks_push hkb).mp hc with rfl | hc
          · omega
          · exact (h.stop_le c hc).trans (by omega)
        · exact hpoint
        · rw [BuddyLists.pages_push hkb, h.pages]
        · exact hfit
      obtain ⟨s', free', hres, htiled, hsame⟩ := ih hadd hmax (by
        show s.totalPages.toNat < _
        omega)
      exact ⟨s', free', hres, htiled, (buddyAddFree_sameZone ..).trans hsame⟩
    · rw [if_neg hlt]
      rw [BitVec.lt_def] at hlt
      have heq : idx.toNat = s.totalPages.toNat := by have := h.le; omega
      rw [heq] at h
      exact ⟨s, free, rfl, h, .refl s⟩

/-! ### The empty zone -/

/-- The loop over the sentinels initialises each. -/
theorem foldl_listInit_head (l : List ℕ) (nodes : FreeNodes) (k : ℕ) :
    l.foldl (fun nodes i => listInit (.head i) nodes) nodes (.head k) =
      if k ∈ l then ⟨.head k, .head k⟩ else nodes (.head k) := by
  induction l generalizing nodes with
  | nil => rfl
  | cons i l ih =>
    rw [List.foldl_cons, ih]
    by_cases hkl : k ∈ l
    · rw [if_pos hkl, if_pos (List.mem_cons_of_mem _ hkl)]
    · rw [if_neg hkl]
      by_cases hki : k = i
      · subst hki
        rw [if_pos (by simp)]
        simp [listInit, FreeNodes.setNext, FreeNodes.setPrev]
      · rw [if_neg (by simp [hki, hkl])]
        simp [listInit, FreeNodes.setNext, FreeNodes.setPrev, hki]

/-- The zone of an area before the tiling: everything is reset and the descriptors are cleared. -/
def BuddyArea.cleared (A : BuddyArea) (s : BuddyState) : BuddyState :=
  let s := buddyReset s
  { s with
    basePhys := A.managedStart
    totalPages := A.managedPages
    pages := physToVirt A.regionStart
    totalFree := 0#32
    nodes := fun p =>
      match p with
      | .page i => if i < A.managedPages then ⟨.null, .null⟩ else s.nodes (.page i)
      | p => s.nodes p
    order := fun i => if i < A.managedPages then 0#8 else s.order i
    isFree := fun i => if i < A.managedPages then 0#8 else s.isFree i }

/-- A cleared zone has every list empty. -/
theorem BuddyArea.cleared_holds (A : BuddyArea) (s : BuddyState) :
    (A.cleared s).Holds fun _ => [] := by
  have hno : ∀ b, b ∉ BuddyLists.blocks fun _ => [] := fun b hb => absurd hb.2 List.not_mem_nil
  constructor
  · intro k hk
    have hhead : (A.cleared s).nodes (.head k) = ⟨.head k, .head k⟩ := by
      show (buddyReset s).nodes (.head k) = _
      unfold buddyReset
      dsimp only
      rw [foldl_listInit_head, if_pos (List.mem_range.mpr (by omega))]
    apply ring_nil
    · rw [hhead]
    · rw [hhead]
  · exact fun b hb => absurd hb (hno b)
  · exact fun b hb => absurd hb (hno b)
  · intro i hi hfree
    exact absurd (if_pos hi) hfree
  · exact fun _ _ => rfl
  · show 0#32 = BitVec.ofNat 32 (∑ k ∈ Finset.range (buddyMaxOrder + 1), 2 ^ k * 0)
    simp

/-- A zone lies below 4 GiB, so it has at most `2 ^ 20` pages. -/
theorem BuddyArea.pages_le (A : BuddyArea) : A.managedPages.toNat ≤ 2 ^ 20 := by
  have := A.fits
  omega

/-- **Steps 3 and 4** build the initial state. -/
theorem buddyInitZone_spec (A : BuddyArea) (s : BuddyState) :
    ∃ s' free, buddyInitZone A.regionStart A.managedStart A.managedPages (buddyReset s) = some s' ∧
      s'.Describes free [] [] ∧ s'.basePhys = A.managedStart ∧ s'.totalPages = A.managedPages ∧
      s'.ready = true := by
  have hstart : (A.cleared s).TiledUpTo (fun _ => []) (0#32).toNat := by
    have hno : ∀ b, b ∉ BuddyLists.blocks fun _ => [] := fun b hb => absurd hb.2 List.not_mem_nil
    refine ⟨A.cleared_holds s, fun b hb => absurd hb (hno b), fun q hq => absurd hq (Nat.not_lt_zero q),
      fun b hb => absurd hb (hno b), DyadicBlock.greedyPoint_zero _ _, ?_, Nat.zero_le _⟩
    show ∑ k ∈ Finset.range (buddyMaxOrder + 1), 2 ^ k * 0 = 0
    simp
  obtain ⟨s', free, hres, htiled, hsame⟩ := buddyTile_spec (n := A.managedPages.toNat + 1) hstart
    A.pages_le (by
      show A.managedPages.toNat < 0 + (A.managedPages.toNat + 1)
      omega)
  have hdesc := htiled.describes
  refine ⟨{ s' with ready := true }, free, ?_, ?_, hsame.basePhys, hsame.totalPages, rfl⟩
  · show (buddyTile (A.cleared s).totalPages _ _ (A.cleared s)).map _ = _
    rw [hres]
    rfl
  · exact ⟨⟨hdesc.holds.ring, hdesc.holds.stop_le, hdesc.holds.tags, hdesc.holds.only, hdesc.holds.count,
      hdesc.holds.total⟩, hdesc.tiles, hdesc.disjoint, hdesc.nodup, hdesc.order_le, hdesc.coalesced,
      hdesc.size, hdesc.live_tag⟩

/-! ### Single pages -/

/-- The zone of the state is that of the area, and the backend is ready. -/
structure BuddyState.Serves (s : BuddyState) (A : BuddyArea) : Prop where
  basePhys : s.basePhys = A.managedStart
  totalPages : s.totalPages = A.managedPages
  ready : s.ready = true

/-- Serving an area is a matter of the zone fields. -/
theorem BuddyState.Serves.of_sameZone {s s' : BuddyState} {A : BuddyArea} (h : s.Serves A)
    (hsame : s.SameZone s') : s'.Serves A :=
  ⟨hsame.basePhys.trans h.basePhys, hsame.totalPages.trans h.totalPages, hsame.ready.trans h.ready⟩

section Pages
variable {s : BuddyState} {A : BuddyArea} {free : BuddyLists} {live : List DyadicBlock} {b : DyadicBlock}

/-- The address of a page of the zone. -/
theorem indexToPhys_toNat (h : s.Serves A) {idx : U32} (hlt : idx < s.totalPages) :
    (indexToPhys s idx).toNat = A.managedStart.toNat + idx.toNat * 4096 := by
  have hfits := A.fits
  rw [h.totalPages, BitVec.lt_def] at hlt
  unfold indexToPhys
  rw [h.basePhys, BitVec.toNat_add, BitVec.toNat_mul, show pageSize.toNat = 4096 from rfl,
    Nat.mod_eq_of_lt (a := idx.toNat * 4096) (by omega), Nat.mod_eq_of_lt (by omega)]

/-- No page of a zone is at address zero, so an address given is never `NULL`. -/
theorem indexToPhys_ne_zero (h : s.Serves A) {idx : U32} (hlt : idx < s.totalPages) :
    indexToPhys s idx ≠ 0#32 := by
  have hne := A.start_ne_zero
  have haddr := indexToPhys_toNat h hlt
  intro h0
  rw [h0] at haddr
  bv_omega

/-- `phys_to_index` undoes `index_to_phys`. -/
theorem physToIndex_indexToPhys (h : s.Serves A) {idx : U32} (hlt : idx < s.totalPages) :
    physToIndex s (indexToPhys s idx) = idx := by
  have haddr := indexToPhys_toNat h hlt
  have hbound := (indexToPhys s idx).isLt
  apply BitVec.eq_of_toNat_eq
  unfold physToIndex
  rw [BitVec.toNat_udiv, h.basePhys, BitVec.toNat_sub_of_le (by rw [BitVec.le_def]; omega), haddr,
    show pageSize.toNat = 4096 from rfl]
  omega

/-- A page that a caller holds is not tagged free. -/
theorem BuddyState.Describes.isFree_live (h : s.Describes free [] live) (hb : b ∈ live) :
    s.isFree (blockIdx b) = 0#8 := by
  by_contra hfree
  obtain ⟨c, hc, heq⟩ := h.holds.only _ (blockIdx_lt (h.stop_le (.inr hb))) hfree
  obtain rfl := h.inj (.inl hc) (.inr hb) heq
  exact h.disjoint c hc hb

/-- `pmm_buddy_free_page` gives back the block that starts at the page. -/
theorem pmmBuddyFreePage_eq (h : s.Describes free [] live) (hA : s.Serves A) (hb : b ∈ live) :
    pmmBuddyFreePage (indexToPhys s (blockIdx b)) s = buddyFree (blockIdx b) b.order s := by
  have hlt := blockIdx_lt (h.stop_le (.inr hb))
  have haddr := indexToPhys_toNat hA hlt
  have halign : indexToPhys s (blockIdx b) &&& (pageSize - 1#32) = 0#32 := by
    show U32.PageAligned _
    rw [U32.pageAligned_iff, haddr]
    exact Nat.dvd_add ((U32.pageAligned_iff _).mp A.start_aligned) (Nat.dvd_mul_left ..)
  have hbase : ¬ indexToPhys s (blockIdx b) < s.basePhys := by
    rw [hA.basePhys, BitVec.lt_def, haddr]
    omega
  have htag : (s.order (blockIdx b)).toNat = b.order := by
    have hk := h.order_le b hb
    unfold buddyMaxOrder at hk
    rw [h.live_tag b hb]
    exact Nat.mod_eq_of_lt (by omega)
  unfold pmmBuddyFreePage
  rw [physToIndex_indexToPhys hA hlt, if_neg (by simp [hA.ready, indexToPhys_ne_zero hA hlt]),
    if_neg (not_not.mpr halign), if_neg hbase, if_neg (BitVec.not_le.mpr hlt), h.isFree_live hb,
    if_neg (by decide), htag]

/-- `pmm_buddy_alloc_page` returns `NULL`, or a page that its caller holds from then on. -/
theorem pmmBuddyAllocPage_spec (h : s.Describes free [] live) (hA : s.Serves A) :
    pmmBuddyAllocPage s = some (s, 0#32) ∨
    ∃ s' free' b, pmmBuddyAllocPage s = some (s', indexToPhys s' (blockIdx b)) ∧ b.order = 0 ∧
      s'.Describes free' [] (b :: live) ∧ s.SameZone s' := by
  unfold pmmBuddyAllocPage
  rw [if_neg (by simp [hA.ready])]
  by_cases hzero : s.totalFree = 0#32
  · exact .inl (if_pos hzero)
  · rw [if_neg hzero]
    rcases buddyAlloc_spec h (Nat.zero_le buddyMaxOrder) with ⟨hres, -⟩ |
      ⟨s', free', b, hres, hb, hdesc, hsame, -⟩
    · left
      rw [hres]
      rfl
    · right
      refine ⟨s', free', b, ?_, hb, hdesc, hsame⟩
      have hne : blockIdx b ≠ 0xFFFFFFFF#32 := blockIdx_ne_max (hdesc.stop_le (.inr (by simp)))
      rw [hres, Option.map_some, if_neg hne]

end Pages

end Microkernel.Pmm
