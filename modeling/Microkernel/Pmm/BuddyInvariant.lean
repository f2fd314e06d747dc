import Microkernel.Pmm.BuddyLists

/-! # The invariant of the buddy allocator

The free blocks, the blocks that callers hold and those a function has in hand tile the zone, and no two
free buddies are left unmerged. The loops of `buddy_alloc` and `buddy_free` are made of four moves: a
block is taken off its list, a block in hand is split, two buddies in hand are merged, a block in hand is
put on its list.

* **`Describes`** — the invariant, with the free blocks, those in hand and the live ones beside the state.
* **`SameZone`** — the fields that no call changes.

Each move is a lemma on the tiling from `Lib/DyadicBlock` and one on the lists from `Pmm/BuddyLists`.
-/

namespace Microkernel.Pmm

open DyadicBlock (Tiles Coalesced)

/-! ### Page numbers of blocks -/

/-- The page number of the buddy. -/
theorem calcBuddyIndex_blockIdx (b : DyadicBlock) :
    calcBuddyIndex (blockIdx b) b.order = blockIdx b.buddy := by
  unfold calcBuddyIndex blockIdx
  rw [DyadicBlock.start_buddy, one_shiftLeft, BitVec.ofNat_xor]

/-- It does not wrap around. -/
theorem blockIdx_buddy_toNat {b : DyadicBlock} (hb : b.start < 2 ^ 32)
    (hk : b.order ≤ buddyMaxOrder) : (blockIdx b.buddy).toNat = b.buddy.start := by
  have hpow : 2 ^ b.order < 2 ^ 32 :=
    Nat.pow_lt_pow_right (by decide) (lt_of_le_of_lt hk (by decide))
  have hlt : b.buddy.start < 2 ^ 32 := by
    rw [DyadicBlock.start_buddy]
    exact Nat.xor_lt_two_pow hb hpow
  exact Nat.mod_eq_of_lt hlt

/-- The page number of the parent. -/
theorem blockIdx_parent (b : DyadicBlock) :
    blockIdx b &&& ~~~ (1#32 <<< b.order) = blockIdx b.parent := by
  unfold blockIdx DyadicBlock.start DyadicBlock.parent
  dsimp only
  rw [one_shiftLeft]
  refine BitVec.eq_of_getLsbD_eq fun i hi => ?_
  rw [BitVec.getLsbD_and, BitVec.getLsbD_not, BitVec.getLsbD_ofNat, BitVec.getLsbD_ofNat,
    BitVec.getLsbD_ofNat, Nat.testBit_mul_two_pow, Nat.testBit_mul_two_pow, Nat.testBit_two_pow]
  rcases lt_trichotomy i b.order with hlt | rfl | hgt
  · have : ¬ b.order ≤ i := by omega
    have : ¬ b.order + 1 ≤ i := by omega
    simp [*]
  · simp
  · obtain ⟨j, rfl⟩ : ∃ j, i = b.order + 1 + j := ⟨i - (b.order + 1), by omega⟩
    have hsub : b.order + 1 + j - b.order = j + 1 := by omega
    have hle : b.order ≤ b.order + 1 + j := by omega
    have hne : ¬ b.order = b.order + 1 + j := by omega
    rw [hsub, Nat.add_sub_cancel_left, Nat.testBit_div_two]
    simp [hi, hle, hne]

/-- The lower half of a block starts at the same index. -/
theorem blockIdx_lower {b : DyadicBlock} (h : 0 < b.order) : blockIdx b.lower = blockIdx b := by
  unfold blockIdx
  rw [DyadicBlock.start_lower h]

/-- The page number of the second half. -/
theorem blockIdx_buddy_lower {b : DyadicBlock} (h : 0 < b.order) :
    blockIdx b + 1#32 <<< (b.order - 1) = blockIdx b.lower.buddy := by
  unfold blockIdx
  rw [DyadicBlock.start_buddy_lower h, one_shiftLeft, BitVec.ofNat_add]

/-! ### The invariant -/

/-- **The state describes** the free blocks `free`, the blocks `hand` that a function is working on and
the blocks `live` that callers hold. -/
structure BuddyState.Describes (s : BuddyState) (free : BuddyLists) (hand live : List DyadicBlock) :
    Prop where
  /-- The statics hold the free blocks. -/
  holds : s.Holds free
  /-- Every page of the zone lies in exactly one block. -/
  tiles : Tiles {p | p < s.totalPages.toNat} {b | b ∈ free.blocks ∨ b ∈ hand ++ live}
  disjoint : ∀ b ∈ free.blocks, b ∉ hand ++ live
  nodup : (hand ++ live).Nodup
  order_le : ∀ b ∈ hand ++ live, b.order ≤ buddyMaxOrder
  /-- Nothing is left to merge. -/
  coalesced : Coalesced buddyMaxOrder free.blocks
  /-- The pages add up. -/
  size : free.pages + ((hand ++ live).map fun b => 2 ^ b.order).sum = s.totalPages.toNat
  /-- The first page of a block that a caller holds has its order. -/
  live_tag : ∀ b ∈ live, s.order (blockIdx b) = BitVec.ofNat 8 b.order

/-- The fields that `init` sets once. -/
structure BuddyState.SameZone (s s' : BuddyState) : Prop where
  basePhys : s'.basePhys = s.basePhys
  totalPages : s'.totalPages = s.totalPages
  pages : s'.pages = s.pages
  ready : s'.ready = s.ready

theorem BuddyState.SameZone.refl (s : BuddyState) : s.SameZone s := ⟨rfl, rfl, rfl, rfl⟩

/-- Keeping the zone fields twice is keeping them. -/
theorem BuddyState.SameZone.trans {s t u : BuddyState} (h : s.SameZone t) (h' : t.SameZone u) :
    s.SameZone u :=
  ⟨h'.1.trans h.1, h'.2.trans h.2, h'.3.trans h.3, h'.4.trans h.4⟩

theorem buddyAddFree_sameZone (idx : U32) (k : ℕ) (s : BuddyState) :
    s.SameZone (buddyAddFree idx k s) := ⟨rfl, rfl, rfl, rfl⟩

theorem buddyRemoveFree_sameZone (idx : U32) (k : ℕ) (s : BuddyState) :
    s.SameZone (buddyRemoveFree idx k s) := ⟨rfl, rfl, rfl, rfl⟩

section Describes
variable {s : BuddyState} {free : BuddyLists} {hand live : List DyadicBlock} {b c : DyadicBlock}

/-- Every block ends in the zone. -/
theorem BuddyState.Describes.stop_le (h : s.Describes free hand live)
    (hb : b ∈ free.blocks ∨ b ∈ hand ++ live) : b.stop ≤ s.totalPages.toNat := by
  have hpos : 0 < 2 ^ b.order := Nat.two_pow_pos _
  have hlast : b.start + (2 ^ b.order - 1) ∈ b := by
    rw [DyadicBlock.mem_iff]
    unfold DyadicBlock.stop
    omega
  have hlt : b.start + (2 ^ b.order - 1) < s.totalPages.toNat :=
    (h.tiles.mem_iff _).mpr ⟨b, hb, hlast⟩
  unfold DyadicBlock.stop
  omega

/-- Different blocks start at different pages. -/
theorem BuddyState.Describes.inj (h : s.Describes free hand live)
    (hb : b ∈ free.blocks ∨ b ∈ hand ++ live) (hc : c ∈ free.blocks ∨ c ∈ hand ++ live)
    (heq : blockIdx b = blockIdx c) : b = c := by
  have hstart := congrArg BitVec.toNat heq
  rw [blockIdx_toNat (h.stop_le hb), blockIdx_toNat (h.stop_le hc)] at hstart
  refine h.tiles.unique b hb c hc _ b.start_mem ?_
  rw [hstart]
  exact c.start_mem

/-- The order in which the blocks are named does not matter. -/
theorem BuddyState.Describes.perm {hand' live' : List DyadicBlock} (h : s.Describes free hand live)
    (hhand : hand.Perm hand') (hlive : live.Perm live') : s.Describes free hand' live' := by
  have hperm := hhand.append hlive
  constructor
  · exact h.holds
  · convert h.tiles using 1
    ext c
    show _ ∨ _ ↔ _ ∨ _
    rw [hperm.mem_iff]
  · exact fun c hc hmem => h.disjoint c hc (hperm.mem_iff.mpr hmem)
  · exact hperm.nodup_iff.mp h.nodup
  · exact fun c hc => h.order_le c (hperm.mem_iff.mpr hc)
  · exact h.coalesced
  · rw [← h.size, (hperm.map fun b => 2 ^ b.order).sum_eq]
  · exact fun c hc => h.live_tag c (hlive.mem_iff.mpr hc)

/-- A block in hand whose first page has its order goes to a caller. -/
theorem BuddyState.Describes.hold (h : s.Describes free [b] live)
    (htag : s.order (blockIdx b) = BitVec.ofNat 8 b.order) : s.Describes free [] (b :: live) := by
  refine ⟨h.holds, h.tiles, h.disjoint, h.nodup, h.order_le, h.coalesced, h.size, fun c hc => ?_⟩
  rcases List.mem_cons.mp hc with rfl | hc
  exacts [htag, h.live_tag c hc]

/-- A block that a caller holds comes into hand. -/
theorem BuddyState.Describes.release (h : s.Describes free [] live) (hb : b ∈ live) :
    s.Describes free [b] (live.erase b) := by
  have h' := h.perm (.refl _) (List.perm_cons_erase hb)
  exact ⟨h'.holds, h'.tiles, h'.disjoint, h'.nodup, h'.order_le, h'.coalesced, h'.size,
    fun c hc => h'.live_tag c (List.mem_cons_of_mem _ hc)⟩

/-- The order tag of a block in hand is free to change. -/
theorem BuddyState.Describes.setOrder (h : s.Describes free (b :: hand) live) (v : U8) :
    ({ s with order := Function.update s.order (blockIdx b) v } : BuddyState).Describes free (b :: hand)
      live := by
  have hb : b ∈ b :: hand ++ live := by simp
  have hne : ∀ c, c ∈ free.blocks ∨ c ∈ hand ++ live → blockIdx c ≠ blockIdx b := by
    intro c hc heq
    obtain rfl := h.inj (hc.imp_right (List.mem_cons_of_mem _)) (.inr hb) heq
    rcases hc with hc | hc
    exacts [h.disjoint c hc hb, (List.nodup_cons.mp h.nodup).1 hc]
  refine ⟨⟨h.holds.ring, h.holds.stop_le, fun c hc => ?_, h.holds.only, h.holds.count, h.holds.total⟩,
    h.tiles, h.disjoint, h.nodup, h.order_le, h.coalesced, h.size, fun c hc => ?_⟩
  · show _ ∧ Function.update _ _ _ _ = _
    rw [Function.update_of_ne (hne c (.inl hc))]
    exact h.holds.tags c hc
  · show Function.update _ _ _ _ = _
    rw [Function.update_of_ne (hne c (.inr (List.mem_append_right _ hc)))]
    exact h.live_tag c hc

/-- Move one: a free block is taken off its list. -/
theorem BuddyState.Describes.take (h : s.Describes free hand live) (hb : b ∈ free.blocks) :
    (buddyRemoveFree (blockIdx b) b.order s).Describes (free.erase b) (b :: hand) live := by
  have hmem : ∀ c, c ∈ (free.erase b).blocks ↔ c ∈ free.blocks ∧ c ≠ b :=
    fun c => BuddyLists.mem_blocks_erase (h.holds.nodup hb.1)
  -- the block only changes sides, so the tiling is the same set of blocks
  have hset : {c | c ∈ (free.erase b).blocks ∨ c ∈ b :: hand ++ live} =
      {c | c ∈ free.blocks ∨ c ∈ hand ++ live} := by
    ext c
    show _ ∨ _ ↔ _ ∨ _
    rw [hmem, List.cons_append, List.mem_cons]
    by_cases hc : c = b
    · subst hc
      tauto
    · tauto
  constructor
  · exact buddyRemoveFree_holds h.holds hb
  · rw [hset]
    exact h.tiles
  · intro c hc hmem'
    obtain ⟨hc, hne⟩ := (hmem c).mp hc
    rcases List.mem_cons.mp hmem' with hcb | hc'
    exacts [hne hcb, h.disjoint c hc hc']
  · exact List.nodup_cons.mpr ⟨h.disjoint b hb, h.nodup⟩
  · intro c hc
    rcases List.mem_cons.mp hc with rfl | hc
    exacts [hb.1, h.order_le c hc]
  · exact fun c hc hlt hbuddy => h.coalesced c ((hmem c).mp hc).1 hlt ((hmem _).mp hbuddy).1
  · have hsize := h.size
    have hpages := BuddyLists.pages_erase hb
    rw [List.cons_append, List.map_cons, List.sum_cons]
    show _ = s.totalPages.toNat
    omega
  · exact h.live_tag

/-- Move two: a block in hand is put on its list, when its buddy is not free. -/
theorem BuddyState.Describes.give (h : s.Describes free (b :: hand) live)
    (hbuddy : b.order < buddyMaxOrder → b.buddy ∉ free.blocks) :
    (buddyAddFree (blockIdx b) b.order s).Describes (free.push b) hand live := by
  have hb : b ∈ b :: hand ++ live := by simp
  have hk := h.order_le b hb
  have hnd := List.nodup_cons.mp h.nodup
  have hset : {c | c ∈ (free.push b).blocks ∨ c ∈ hand ++ live} =
      {c | c ∈ free.blocks ∨ c ∈ b :: hand ++ live} := by
    ext c
    show _ ∨ _ ↔ _ ∨ _
    rw [BuddyLists.mem_blocks_push hk, List.cons_append, List.mem_cons]
    tauto
  constructor
  · refine buddyAddFree_holds h.holds hk (h.stop_le (.inr hb)) fun c hc heq => ?_
    obtain rfl := h.inj (.inl hc) (.inr hb) heq
    exact h.disjoint c hc hb
  · rw [hset]
    exact h.tiles
  · intro c hc hmem
    rcases (BuddyLists.mem_blocks_push hk).mp hc with rfl | hc
    · exact hnd.1 hmem
    · exact h.disjoint c hc (List.mem_cons_of_mem _ hmem)
  · exact hnd.2
  · exact fun c hc => h.order_le c (List.mem_cons_of_mem _ hc)
  · -- a new pair of buddies would have the new block in it
    intro c hc hlt hcb
    rw [BuddyLists.mem_blocks_push hk] at hc hcb
    rcases hc with rfl | hc <;> rcases hcb with hcb | hcb
    · exact c.buddy_ne hcb
    · exact hbuddy hlt hcb
    · subst hcb
      rw [DyadicBlock.buddy_buddy] at hbuddy
      exact hbuddy hlt hc
    · exact h.coalesced c hc hlt hcb
  · have hsize := h.size
    rw [List.cons_append, List.map_cons, List.sum_cons] at hsize
    rw [BuddyLists.pages_push hk]
    show _ = s.totalPages.toNat
    omega
  · intro c hc
    have hne : blockIdx c ≠ blockIdx b := by
      intro heq
      have hmem : c ∈ hand ++ live := List.mem_append_right _ hc
      obtain rfl := h.inj (.inr (List.mem_cons_of_mem _ hmem)) (.inr hb) heq
      exact hnd.1 hmem
    show Function.update _ _ _ _ = _
    rw [Function.update_of_ne hne]
    exact h.live_tag c hc

/-- Move three: a block in hand is split. -/
theorem BuddyState.Describes.split (h : s.Describes free (b.parent :: hand) live) :
    s.Describes free (b :: b.buddy :: hand) live := by
  have hparent : b.parent ∈ b.parent :: hand ++ live := by simp
  have hnd := List.nodup_cons.mp h.nodup
  -- neither half is a block yet
  have hnew : ∀ d, d.parent = b.parent → d ∉ free.blocks ∧ d ∉ hand ++ live := by
    intro d hd
    have hnot : ¬ (d ∈ free.blocks ∨ d ∈ b.parent :: hand ++ live) := by
      intro hmem
      have := h.tiles.parent_notMem hmem
      rw [hd] at this
      exact this (.inr hparent)
    exact ⟨fun hm => hnot (.inl hm), fun hm => hnot (.inr (List.mem_cons_of_mem _ hm))⟩
  have hb := hnew b rfl
  have hbb := hnew b.buddy b.parent_buddy
  constructor
  · exact h.holds
  · convert h.tiles.split (.inr hparent) using 1
    ext c
    show _ ∨ _ ↔ c = b ∨ c = b.buddy ∨ (_ ∨ _) ∧ c ≠ b.parent
    simp only [List.cons_append, List.mem_cons]
    by_cases hc : c = b.parent
    · subst hc
      have h₁ : b.parent ∉ free.blocks := fun hf => h.disjoint _ hf hparent
      tauto
    · tauto
  · intro c hc hmem
    rcases List.mem_cons.mp hmem with rfl | hmem
    · exact hb.1 hc
    · rcases List.mem_cons.mp hmem with rfl | hmem
      · exact hbb.1 hc
      · exact h.disjoint c hc (List.mem_cons_of_mem _ hmem)
  · refine List.nodup_cons.mpr ⟨?_, List.nodup_cons.mpr ⟨hbb.2, hnd.2⟩⟩
    show b ∉ b.buddy :: (hand ++ live)
    rw [List.mem_cons, not_or]
    exact ⟨b.buddy_ne.symm, hb.2⟩
  · have hk := h.order_le _ hparent
    rw [DyadicBlock.parent_order] at hk
    intro c hc
    rcases List.mem_cons.mp hc with rfl | hc
    · omega
    · rcases List.mem_cons.mp hc with rfl | hc
      · rw [DyadicBlock.buddy_order]
        omega
      · exact h.order_le c (List.mem_cons_of_mem _ hc)
  · exact h.coalesced
  · have hsize := h.size
    simp only [List.cons_append, List.map_cons, List.sum_cons, DyadicBlock.parent_order,
      DyadicBlock.buddy_order, Nat.pow_succ] at hsize ⊢
    omega
  · exact h.live_tag

/-- Move four: two buddies in hand are merged. -/
theorem BuddyState.Describes.merge (h : s.Describes free (b :: b.buddy :: hand) live)
    (hk : b.order < buddyMaxOrder) : s.Describes free (b.parent :: hand) live := by
  have hb : b ∈ b :: b.buddy :: hand ++ live := by simp
  have hbb : b.buddy ∈ b :: b.buddy :: hand ++ live := by simp
  obtain ⟨hnb, hnd⟩ := List.nodup_cons.mp h.nodup
  obtain ⟨hnbb, hnd⟩ := List.nodup_cons.mp hnd
  -- no tile lies inside another, so the parent is not among the blocks yet
  have hparent := h.tiles.parent_notMem (.inr hb)
  constructor
  · exact h.holds
  · convert h.tiles.merge (.inr hb) (.inr hbb) using 1
    ext c
    show _ ∨ _ ↔ c = b.parent ∨ (_ ∨ _) ∧ c ≠ b ∧ c ≠ b.buddy
    have h₁ := h.disjoint c
    simp only [List.cons_append, List.mem_cons] at h₁ hnb ⊢
    by_cases hc : c = b
    · subst hc
      have : c ≠ c.parent := DyadicBlock.ne_of_order_ne (by simp)
      tauto
    · by_cases hc' : c = b.buddy
      · subst hc'
        have : b.buddy ≠ b.parent := DyadicBlock.ne_of_order_ne (by simp)
        tauto
      · tauto
  · intro c hc hmem
    rcases List.mem_cons.mp hmem with rfl | hmem
    · exact hparent (.inl hc)
    · exact h.disjoint c hc (List.mem_cons_of_mem _ (List.mem_cons_of_mem _ hmem))
  · refine List.nodup_cons.mpr ⟨fun hmem => hparent (.inr ?_), hnd⟩
    exact List.mem_cons_of_mem _ (List.mem_cons_of_mem _ hmem)
  · intro c hc
    rcases List.mem_cons.mp hc with rfl | hc
    · exact hk
    · exact h.order_le c (List.mem_cons_of_mem _ (List.mem_cons_of_mem _ hc))
  · exact h.coalesced
  · have hsize := h.size
    simp only [List.cons_append, List.map_cons, List.sum_cons, DyadicBlock.parent_order,
      DyadicBlock.buddy_order, Nat.pow_succ] at hsize ⊢
    omega
  · exact h.live_tag

end Describes

end Microkernel.Pmm
