import Microkernel.Pmm.BuddyInvariant

/-! # `buddy_alloc` and `buddy_free`

Each loop is a sequence of the four moves of the invariant; what the two functions do to the blocks.

* **`buddyAlloc_spec`** — the search for an order with a free block, then one move off the list and a
  split for each order on the way down. It fails when there is no such order, and then nothing has
  changed.
* **`buddyFree_spec`** — a merge for each order on the way up, as long as the buddy is on its list, and
  one move onto the list. Both are proved by induction on the orders that are left.
-/

namespace Microkernel.Pmm

open Function (update)

variable {s : BuddyState} {free : BuddyLists} {hand live : List DyadicBlock} {b c : DyadicBlock}

/-! ### Allocation -/

/-- The sentinel of an order is alone exactly when the order has no free block. -/
theorem BuddyState.Holds.listEmpty_iff (h : s.Holds free) {k : ℕ} (hk : k ≤ buddyMaxOrder) :
    listEmpty (.head k) s.nodes ↔ free k = [] := by
  rw [Pmm.listEmpty_iff (h.ring k hk)]
  exact List.map_eq_nil_iff

/-- The first loop stops at the first order with a free block. -/
theorem buddyFindOrder_spec (h : s.Holds free) {n cur : ℕ} (hn : cur + n = buddyMaxOrder + 1) :
    cur ≤ buddyFindOrder s n cur ∧
      (∀ k, cur ≤ k → k < buddyFindOrder s n cur → free k = []) ∧
      (buddyFindOrder s n cur ≤ buddyMaxOrder → free (buddyFindOrder s n cur) ≠ []) := by
  induction n generalizing cur with
  | zero =>
    rw [buddyFindOrder]
    exact ⟨le_rfl, fun k h₁ h₂ => absurd h₁ (by omega), fun hle => absurd hle (by omega)⟩
  | succ n ih =>
    have hcur : cur ≤ buddyMaxOrder := by omega
    rw [buddyFindOrder]
    by_cases hempty : listEmpty (.head cur) s.nodes
    · rw [if_pos hempty]
      have hnext : cur + 1 + n = buddyMaxOrder + 1 := by omega
      obtain ⟨hle, hnone, hsome⟩ := ih hnext
      refine ⟨by omega, fun k h₁ h₂ => ?_, hsome⟩
      rcases Nat.eq_or_lt_of_le h₁ with rfl | hlt
      exacts [(h.listEmpty_iff hcur).mp hempty, hnone k hlt h₂]
    · rw [if_neg hempty]
      refine ⟨le_rfl, fun k h₁ h₂ => absurd h₁ (by omega), fun _ hnil => ?_⟩
      exact hempty ((h.listEmpty_iff hcur).mpr hnil)

/-- `list_pop` on the list of an order with a free block takes one off. -/
theorem BuddyState.Holds.listPop (h : s.Holds free) {k : ℕ} (hk : k ≤ buddyMaxOrder)
    (hsome : free k ≠ []) :
    ∃ b ∈ free.blocks, b.order = k ∧
      Pmm.listPop (.head k) s.nodes = (listDel (.page (blockIdx b)) s.nodes, .page (blockIdx b)) := by
  obtain ⟨n, l, hlist⟩ := List.exists_cons_of_ne_nil hsome
  refine ⟨⟨n, k⟩, ⟨hk, by show n ∈ free k; simp [hlist]⟩, rfl, ?_⟩
  have hring := h.ring k hk
  have hnodes : free.nodes k =
      .page (blockIdx ⟨n, k⟩) :: l.map fun n => .page (blockIdx ⟨n, k⟩) := by
    unfold BuddyLists.nodes
    rw [hlist, List.map_cons]
  rw [hnodes] at hring
  have hnext : (s.nodes (.head k)).next = .page (blockIdx ⟨n, k⟩) := hring.next_head
  unfold Pmm.listPop
  rw [if_neg (fun he => hsome ((h.listEmpty_iff hk).mp he)), hnext]

/-- The splitting loop goes down to the order asked for and keeps the first page. -/
theorem buddySplit_spec {order k : ℕ} (hk : b.order = k) (hle : order ≤ k)
    (h : s.Describes free (b :: hand) live) :
    ∃ free' c, (buddySplit (blockIdx b) order k s).Describes free' (c :: hand) live ∧
      c.order = order ∧ blockIdx c = blockIdx b ∧ s.SameZone (buddySplit (blockIdx b) order k s) := by
  induction k generalizing s free b with
  | zero => exact ⟨free, b, h, by omega, rfl, .refl s⟩
  | succ k ih =>
    rw [buddySplit]
    by_cases hgt : k + 1 > order
    · rw [if_pos hgt]
      have hpos : 0 < b.order := by omega
      have hlower : b.lower.order = k := by rw [DyadicBlock.lower_order, hk, Nat.add_sub_cancel]
      -- split the block, and put its second half on a list
      have hsplit : s.Describes free (b.lower :: b.lower.buddy :: hand) live := by
        apply BuddyState.Describes.split
        rwa [DyadicBlock.parent_lower hpos]
      have hswap : s.Describes free (b.lower.buddy :: b.lower :: hand) live :=
        hsplit.perm (.swap ..) (.refl _)
      have hgive := hswap.give fun _ hmem => by
        rw [DyadicBlock.buddy_buddy] at hmem
        exact hsplit.disjoint _ hmem (by simp)
      have hidx : blockIdx b + 1#32 <<< k = blockIdx b.lower.buddy := by
        rw [← blockIdx_buddy_lower hpos, hk, Nat.add_sub_cancel]
      rw [hidx]
      rw [DyadicBlock.buddy_order, hlower] at hgive
      obtain ⟨free', c, hdesc, hc, hcidx, hsame⟩ := ih hlower (by omega) hgive
      rw [blockIdx_lower hpos] at hdesc hcidx hsame
      exact ⟨free', c, hdesc, hc, hcidx, (buddyAddFree_sameZone ..).trans hsame⟩
    · rw [if_neg hgt]
      exact ⟨free, b, h, by omega, rfl, .refl s⟩

/-- **`buddy_alloc`** fails when no free block is large enough; otherwise it returns a block of the order
asked for, which its caller holds from then on. -/
theorem buddyAlloc_spec (h : s.Describes free [] live) {order : ℕ} (ho : order ≤ buddyMaxOrder) :
    (buddyAlloc order s = some (s, 0xFFFFFFFF#32) ∧
      ∀ b ∈ free.blocks, b.order < order) ∨
    ∃ s' free' b, buddyAlloc order s = some (s', blockIdx b) ∧ b.order = order ∧
      s'.Describes free' [] (b :: live) ∧ s.SameZone s' ∧ ∃ c ∈ free.blocks, order ≤ c.order := by
  obtain ⟨hle, hnone, hsome⟩ := buddyFindOrder_spec (n := buddyMaxOrder + 1 - order) h.holds
    (by omega : order + _ = _)
  generalize hcur : buddyFindOrder s (buddyMaxOrder + 1 - order) order = cur at hle hnone hsome
  by_cases hgt : cur > buddyMaxOrder
  · refine .inl ⟨?_, fun b hb => ?_⟩
    · unfold buddyAlloc
      rw [hcur, if_pos hgt]
    · by_contra hge
      have hnil := hnone b.order (by omega) (lt_of_le_of_lt hb.1 hgt)
      have hmem := hb.2
      rw [hnil] at hmem
      exact absurd hmem List.not_mem_nil
  · have hk : cur ≤ buddyMaxOrder := by omega
    -- the first block of the list is taken off it
    obtain ⟨b, hb, rfl, hpop⟩ := h.holds.listPop hk (hsome hk)
    obtain ⟨free', c, hdesc, hc, hcidx, hsame⟩ := buddySplit_spec (b := b) rfl hle (h.take hb)
    refine .inr ⟨_, free', c, ?_, hc, (hdesc.setOrder (BitVec.ofNat 8 order)).hold ?_,
      ((buddyRemoveFree_sameZone ..).trans hsame).trans ⟨rfl, rfl, rfl, rfl⟩, b, hb, hle⟩
    · unfold buddyAlloc
      simp only [hcur, if_neg hgt, hpop]
      rw [hcidx]
      rfl
    · rw [hc]
      exact Function.update_self ..

/-! ### Freeing -/

/-- The tags of its first page say whether the buddy of a block is free. -/
theorem BuddyState.Holds.buddy_free_iff (h : s.Holds free) (hk : b.order ≤ buddyMaxOrder)
    (hstop : b.stop ≤ s.totalPages.toNat) :
    b.buddy ∈ free.blocks ↔ blockIdx b.buddy < s.totalPages ∧ s.isFree (blockIdx b.buddy) ≠ 0#8 ∧
      s.order (blockIdx b.buddy) = BitVec.ofNat 8 b.order := by
  constructor
  · intro hmem
    obtain ⟨hfree, horder⟩ := h.tags _ hmem
    refine ⟨blockIdx_lt (h.stop_le _ hmem), ?_, horder⟩
    rw [hfree]
    decide
  · rintro ⟨hlt, hfree, horder⟩
    obtain ⟨c, hc, heq⟩ := h.only _ hlt hfree
    -- the tag says that the free block there has the order of `b`
    have htag := (h.tags c hc).2
    rw [heq, horder, ofNat_order_inj hk hc.1] at htag
    have hstart := congrArg BitVec.toNat heq
    have hlt := s.totalPages.isLt
    have hpos : 0 < 2 ^ b.order := Nat.two_pow_pos _
    unfold DyadicBlock.stop at hstop
    rw [blockIdx_toNat (h.stop_le c hc), blockIdx_buddy_toNat (by omega) hk] at hstart
    have hcb : c = b.buddy := by
      refine DyadicBlock.eq_of_order_eq c.start_mem ?_ htag.symm
      rw [hstart]
      exact b.buddy.start_mem
    rwa [← hcb]

/-- The merging loop goes on as long as the buddy is free. -/
theorem buddyMerge_spec {n : ℕ} (hn : b.order + n = buddyMaxOrder)
    (h : s.Describes free (b :: hand) live) :
    ∃ s' free' c, buddyMerge n (blockIdx b) b.order s = (blockIdx c, c.order, s') ∧
      s'.Describes free' (c :: hand) live ∧ (c.order < buddyMaxOrder → c.buddy ∉ free'.blocks) ∧
      s.SameZone s' := by
  induction n generalizing s free b with
  | zero => exact ⟨s, free, b, rfl, h, fun hlt => absurd hlt (by omega), .refl s⟩
  | succ n ih =>
    have hb : b ∈ b :: hand ++ live := by simp
    have hiff := h.holds.buddy_free_iff (h.order_le b hb) (h.stop_le (.inr hb))
    rw [buddyMerge, calcBuddyIndex_blockIdx]
    by_cases hout : blockIdx b.buddy ≥ s.totalPages
    · rw [if_pos hout]
      refine ⟨s, free, b, rfl, h, fun _ hmem => ?_, .refl s⟩
      exact BitVec.not_lt.mpr hout (hiff.mp hmem).1
    rw [if_neg hout]
    by_cases htags : s.isFree (blockIdx b.buddy) = 0#8 ∨
        s.order (blockIdx b.buddy) ≠ BitVec.ofNat 8 b.order
    · rw [if_pos htags]
      refine ⟨s, free, b, rfl, h, fun _ hmem => ?_, .refl s⟩
      obtain ⟨-, hfree, horder⟩ := hiff.mp hmem
      rcases htags with h₀ | h₁
      exacts [hfree h₀, h₁ horder]
    · rw [if_neg htags, not_or, not_not] at *
      -- the buddy is taken off its list and merged with the block in hand
      have hbuddy := hiff.mpr ⟨BitVec.not_le.mp hout, htags⟩
      have htake := (h.take hbuddy).perm (.swap ..) (.refl _)
      have hmerge := htake.merge (by omega)
      obtain ⟨s', free', c, hres, hdesc, hc, hsame⟩ := ih (by rw [DyadicBlock.parent_order]; omega) hmerge
      rw [← blockIdx_parent, DyadicBlock.parent_order] at hres
      exact ⟨s', free', c, hres, hdesc, hc, (buddyRemoveFree_sameZone ..).trans hsame⟩

/-- **`buddy_free`** gives a block back. -/
theorem buddyFree_spec (h : s.Describes free [] live) (hb : b ∈ live) :
    ∃ free', (buddyFree (blockIdx b) b.order s).Describes free' [] (live.erase b) ∧
      s.SameZone (buddyFree (blockIdx b) b.order s) := by
  have hrel := h.release hb
  have hk := h.order_le b hb
  obtain ⟨s', free', c, hres, hdesc, hc, hsame⟩ := buddyMerge_spec
    (n := buddyMaxOrder - b.order) (by omega) hrel
  unfold buddyFree
  rw [hres]
  exact ⟨_, hdesc.give hc, hsame.trans (buddyAddFree_sameZone ..)⟩

end Microkernel.Pmm
