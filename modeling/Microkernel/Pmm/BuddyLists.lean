import Microkernel.Lib.DyadicBlock
import Microkernel.Lib.RingList
import Microkernel.Pmm.Buddy
import Mathlib.Algebra.BigOperators.Group.Finset.Basic
import Mathlib.Data.List.Nodup

/-! # The free lists of the buddy allocator

What the statics of the allocator have to say to hold a family of free blocks: a circular list for each
order, the tags in the page descriptors and the counters. `buddy_add_free` and `buddy_remove_free` put
one block in and take one out.

* **`BuddyState.Holds`** — the statics hold a family of free blocks.
* **`buddyAddFree_holds`, `buddyRemoveFree_holds`** — both operations, as updates of that family.

A free block is named by the index of its first page and its order; the tag in the descriptor of that page
says which list it is on, and no other page of the block has a tag.
-/

namespace Microkernel.Pmm

open Function (update)

/-! ### List operations -/

namespace FreeNodes

/-- The circular list around `head` has the nodes `l`. -/
def Ring (nodes : FreeNodes) (head : NodePtr) (l : List NodePtr) : Prop :=
  Microkernel.Ring (fun p => (nodes p).next) (fun p => (nodes p).prev) head l

variable {nodes nodes' : FreeNodes} {head a : NodePtr} {l l₁ l₂ : List NodePtr}

/-- A ring is a matter of its own nodes: writes elsewhere leave it. -/
theorem Ring.congr (h : nodes.Ring head l) (heq : ∀ p ∈ head :: l, nodes' p = nodes p) :
    nodes'.Ring head l := by
  apply Microkernel.Ring.congr h
  intro p hp
  rw [heq p hp]
  exact ⟨rfl, rfl⟩

end FreeNodes

section Lists
variable {nodes : FreeNodes} {head a : NodePtr} {l l₁ l₂ : List NodePtr}

/-- `list_empty` answers for the list that the ring holds. -/
theorem listEmpty_iff (h : nodes.Ring head l) : listEmpty head nodes ↔ l = [] := by
  unfold listEmpty
  cases l with
  | nil => exact ⟨fun _ => rfl, fun _ => h.next_head_nil⟩
  | cons a l =>
    have ha : a ≠ head := by
      rintro rfl
      exact (List.nodup_cons.mp h.nodup).1 (by simp)
    rw [h.next_head]
    simp [ha]

/-- `list_add_tail` appends a node. -/
theorem listAddTail_ring (h : nodes.Ring head l) (ha : a ∉ head :: l) :
    (listAddTail a head nodes).Ring head (l ++ [a]) := by
  have hah : a ≠ head := by
    rintro rfl
    exact ha (by simp)
  have hap : a ≠ (nodes head).prev := by
    rintro rfl
    exact ha h.prev_head_mem
  have hnext : (fun p => (listAddTail a head nodes p).next) =
      update (update (fun p => (nodes p).next) a head) (nodes head).prev a := by
    funext p
    simp only [listAddTail, FreeNodes.setNext, FreeNodes.setPrev, Function.update_apply]
    grind
  have hprev : (fun p => (listAddTail a head nodes p).prev) =
      update (update (fun p => (nodes p).prev) a (nodes head).prev) head a := by
    funext p
    simp only [listAddTail, FreeNodes.setNext, FreeNodes.setPrev, Function.update_apply]
    grind
  unfold FreeNodes.Ring
  rw [hnext, hprev]
  exact h.addTail ha

/-- `list_add_tail` writes no other node. -/
theorem listAddTail_apply (h : nodes.Ring head l) {p : NodePtr} (ha : a ∉ head :: l)
    (hp : p ∉ a :: head :: l) : listAddTail a head nodes p = nodes p := by
  have hprev := h.prev_head_mem
  simp only [listAddTail, FreeNodes.setNext, FreeNodes.setPrev, Function.update_apply]
  grind

/-- `list_del` takes a node out. -/
theorem listDel_ring (h : nodes.Ring head (l₁ ++ a :: l₂)) :
    (listDel a nodes).Ring head (l₁ ++ l₂) := by
  have hne := h.neighbours
  have hnext : (fun p => (listDel a nodes p).next) =
      update (update (fun p => (nodes p).next) (nodes a).prev (nodes a).next) a a := by
    funext p
    simp only [listDel, FreeNodes.setNext, FreeNodes.setPrev, Function.update_apply]
    grind
  have hprev : (fun p => (listDel a nodes p).prev) =
      update (update (fun p => (nodes p).prev) (nodes a).next (nodes a).prev) a a := by
    funext p
    simp only [listDel, FreeNodes.setNext, FreeNodes.setPrev, Function.update_apply]
    grind
  unfold FreeNodes.Ring
  rw [hnext, hprev]
  exact h.del

/-- `list_del` writes no other node. -/
theorem listDel_apply (h : nodes.Ring head (l₁ ++ a :: l₂)) {p : NodePtr}
    (hp : p ∉ head :: (l₁ ++ a :: l₂)) : listDel a nodes p = nodes p := by
  have hne := h.neighbours
  simp only [listDel, FreeNodes.setNext, FreeNodes.setPrev, Function.update_apply]
  grind

end Lists

/-! ### The free blocks -/

/-- `BUDDY_MAX_ORDER` and the free lists: for each order the numbers of its blocks, in list order. -/
abbrev BuddyLists := ℕ → List ℕ

namespace BuddyLists

/-- The blocks on the lists. -/
def blocks (free : BuddyLists) : Set DyadicBlock :=
  {b | b.order ≤ buddyMaxOrder ∧ b.number ∈ free b.order}

/-- How many pages they hold. -/
def pages (free : BuddyLists) : ℕ :=
  ∑ k ∈ Finset.range (buddyMaxOrder + 1), 2 ^ k * (free k).length

/-- A block more, at the end of its list. -/
def push (free : BuddyLists) (b : DyadicBlock) : BuddyLists :=
  update free b.order (free b.order ++ [b.number])

/-- A block less. -/
def erase (free : BuddyLists) (b : DyadicBlock) : BuddyLists :=
  update free b.order ((free b.order).erase b.number)

variable {free : BuddyLists} {b c : DyadicBlock}

/-- A block is free when its number is on the list of its order. -/
theorem mem_blocks : c ∈ free.blocks ↔ c.order ≤ buddyMaxOrder ∧ c.number ∈ free c.order := Iff.rfl

/-- Pushing a block adds it to the free ones. -/
theorem mem_blocks_push (hb : b.order ≤ buddyMaxOrder) :
    c ∈ (free.push b).blocks ↔ c = b ∨ c ∈ free.blocks := by
  unfold push
  rw [mem_blocks, mem_blocks, DyadicBlock.ext_iff]
  by_cases hk : c.order = b.order
  · rw [hk, Function.update_self, List.mem_append, List.mem_singleton]
    tauto
  · rw [Function.update_of_ne hk]
    tauto

/-- Erasing a block takes it and no other away. -/
theorem mem_blocks_erase (hnd : (free b.order).Nodup) :
    c ∈ (free.erase b).blocks ↔ c ∈ free.blocks ∧ c ≠ b := by
  unfold erase
  rw [mem_blocks, mem_blocks, ne_eq, DyadicBlock.ext_iff]
  by_cases hk : c.order = b.order
  · rw [hk, Function.update_self, hnd.mem_erase_iff]
    tauto
  · rw [Function.update_of_ne hk]
    tauto

/-- The count of pages when one list changes. -/
theorem pages_update (free : BuddyLists) {k : ℕ} (hk : k ≤ buddyMaxOrder) (l : List ℕ) :
    pages (update free k l) + 2 ^ k * (free k).length = free.pages + 2 ^ k * l.length := by
  have hmem : k ∈ Finset.range (buddyMaxOrder + 1) := Finset.mem_range.mpr (by omega)
  unfold pages
  rw [← Finset.add_sum_erase _ _ hmem, ← Finset.add_sum_erase _ (fun k => 2 ^ k * (free k).length) hmem,
    Function.update_self]
  have hrest : ∑ j ∈ (Finset.range (buddyMaxOrder + 1)).erase k, 2 ^ j * (update free k l j).length =
      ∑ j ∈ (Finset.range (buddyMaxOrder + 1)).erase k, 2 ^ j * (free j).length := by
    refine Finset.sum_congr rfl fun j hj => ?_
    rw [Function.update_of_ne (Finset.mem_erase.mp hj).1]
  rw [hrest]
  omega

/-- Pushing a block adds its pages. -/
theorem pages_push (hb : b.order ≤ buddyMaxOrder) :
    (free.push b).pages = free.pages + 2 ^ b.order := by
  have h := pages_update free hb (free b.order ++ [b.number])
  rw [List.length_append, List.length_singleton, Nat.mul_add] at h
  unfold push
  omega

/-- Erasing a block takes its pages away. -/
theorem pages_erase (hb : b ∈ free.blocks) : (free.erase b).pages + 2 ^ b.order = free.pages := by
  have h := pages_update free hb.1 ((free b.order).erase b.number)
  have hpos := List.length_pos_of_mem hb.2
  obtain ⟨n, hn⟩ : ∃ n, (free b.order).length = n + 1 := ⟨(free b.order).length - 1, by omega⟩
  rw [List.length_erase_of_mem hb.2, hn, Nat.mul_add, Nat.add_sub_cancel] at h
  unfold erase
  omega

end BuddyLists

/-! ### The statics -/

/-- The index of the first page of a block. -/
def blockIdx (b : DyadicBlock) : U32 := BitVec.ofNat 32 b.start

/-- The nodes of the free list of an order. -/
def BuddyLists.nodes (free : BuddyLists) (k : ℕ) : List NodePtr :=
  (free k).map fun n => .page (blockIdx ⟨n, k⟩)

/-- **The statics hold the free blocks** `free`: the lists, the tags and the counters say so. -/
structure BuddyState.Holds (s : BuddyState) (free : BuddyLists) : Prop where
  /-- Each list is a circular list around its sentinel. -/
  ring : ∀ k ≤ buddyMaxOrder, s.nodes.Ring (.head k) (free.nodes k)
  /-- The free blocks lie in the zone. -/
  stop_le : ∀ b ∈ free.blocks, b.stop ≤ s.totalPages.toNat
  /-- The first page of a free block is tagged as such. -/
  tags : ∀ b ∈ free.blocks, s.isFree (blockIdx b) = 1#8 ∧
    s.order (blockIdx b) = BitVec.ofNat 8 b.order
  /-- No other page of the zone is. -/
  only : ∀ i < s.totalPages, s.isFree i ≠ 0#8 → ∃ b ∈ free.blocks, blockIdx b = i
  /-- `free_count` counts the blocks. -/
  count : ∀ k ≤ buddyMaxOrder, s.freeCount k = BitVec.ofNat 32 (free k).length
  /-- `total_free` counts their pages. -/
  total : s.totalFree = BitVec.ofNat 32 free.pages

section Holds
variable {s : BuddyState} {free : BuddyLists} {b c : DyadicBlock}

/-- The index of the first page of a block of the zone does not wrap. -/
theorem blockIdx_toNat (h : b.stop ≤ s.totalPages.toNat) : (blockIdx b).toNat = b.start := by
  have hlt := s.totalPages.isLt
  have hpos : 0 < 2 ^ b.order := Nat.two_pow_pos _
  unfold DyadicBlock.stop at h
  exact Nat.mod_eq_of_lt (by omega)

/-- It is an index of the zone. -/
theorem blockIdx_lt (h : b.stop ≤ s.totalPages.toNat) : blockIdx b < s.totalPages := by
  have hpos : 0 < 2 ^ b.order := Nat.two_pow_pos _
  rw [BitVec.lt_def, blockIdx_toNat h]
  unfold DyadicBlock.stop at h
  omega

/-- The index of a block is not `UINT32_MAX`. -/
theorem blockIdx_ne_max (h : b.stop ≤ s.totalPages.toNat) : blockIdx b ≠ 0xFFFFFFFF#32 := by
  have hlt := blockIdx_lt h
  bv_omega

/-- `1u << k` is a power of two, or zero past the width. -/
theorem one_shiftLeft (k : ℕ) : 1#32 <<< k = BitVec.ofNat 32 (2 ^ k) := by
  apply BitVec.eq_of_toNat_eq
  rw [BitVec.toNat_shiftLeft, show (1#32).toNat = 1 from rfl, Nat.one_shiftLeft, BitVec.toNat_ofNat]

/-- The order of a block fits its tag. -/
theorem ofNat_order_inj {j k : ℕ} (hj : j ≤ buddyMaxOrder) (hk : k ≤ buddyMaxOrder) :
    BitVec.ofNat 8 j = BitVec.ofNat 8 k ↔ j = k := by
  unfold buddyMaxOrder at hj hk
  rw [← BitVec.toNat_inj, BitVec.toNat_ofNat, BitVec.toNat_ofNat]
  omega

/-- Blocks of one order that start at the same page are equal. -/
theorem eq_of_blockIdx_eq (hb : b.stop ≤ s.totalPages.toNat) (hc : c.stop ≤ s.totalPages.toNat)
    (hk : b.order = c.order) (heq : blockIdx b = blockIdx c) : b = c := by
  have hstart := congrArg BitVec.toNat heq
  rw [blockIdx_toNat hb, blockIdx_toNat hc] at hstart
  refine DyadicBlock.eq_of_order_eq b.start_mem ?_ hk
  rw [hstart]
  exact c.start_mem

/-- The tag of its first page says which free block it is. -/
theorem BuddyState.Holds.eq_of_tag (h : s.Holds free) (hb : b ∈ free.blocks)
    (hk : c.order ≤ buddyMaxOrder) (hc : c.stop ≤ s.totalPages.toNat) (heq : blockIdx b = blockIdx c)
    (htag : s.order (blockIdx c) = BitVec.ofNat 8 c.order) : b = c := by
  have htag' := (h.tags b hb).2
  rw [heq, htag, ofNat_order_inj hk hb.1] at htag'
  exact eq_of_blockIdx_eq (h.stop_le b hb) hc htag'.symm heq

/-- Different free blocks start at different pages. -/
theorem BuddyState.Holds.inj (h : s.Holds free) (hb : b ∈ free.blocks) (hc : c ∈ free.blocks)
    (heq : blockIdx b = blockIdx c) : b = c :=
  h.eq_of_tag hb hc.1 (h.stop_le c hc) heq (h.tags c hc).2

/-- No list names a block twice. -/
theorem BuddyState.Holds.nodup (h : s.Holds free) {k : ℕ} (hk : k ≤ buddyMaxOrder) :
    (free k).Nodup := (List.nodup_cons.mp (h.ring k hk).nodup).2.of_map

/-- The nodes of a list are the first pages of its blocks. -/
theorem mem_nodes {k : ℕ} {p : NodePtr} (hk : k ≤ buddyMaxOrder) :
    p ∈ free.nodes k ↔ ∃ b ∈ free.blocks, b.order = k ∧ p = .page (blockIdx b) := by
  unfold BuddyLists.nodes
  rw [List.mem_map]
  constructor
  · rintro ⟨n, hn, rfl⟩
    exact ⟨⟨n, k⟩, ⟨hk, hn⟩, rfl, rfl⟩
  · rintro ⟨⟨n, j⟩, hb, rfl, rfl⟩
    exact ⟨n, hb.2, rfl⟩

/-- Pushing a block appends its node to its own list. -/
theorem nodes_push (k : ℕ) : (free.push b).nodes k =
    if k = b.order then free.nodes k ++ [.page (blockIdx b)] else free.nodes k := by
  unfold BuddyLists.nodes BuddyLists.push
  split
  · subst k
    rw [Function.update_self, List.map_append, List.map_singleton]
  · rename_i hk
    rw [Function.update_of_ne hk]

/-- The nodes of one list are not those of another. -/
theorem BuddyState.Holds.notMem_other (h : s.Holds free) {j k : ℕ} {p : NodePtr}
    (hj : j ≤ buddyMaxOrder) (hk : k ≤ buddyMaxOrder) (hne : k ≠ j)
    (hp : p ∈ .head k :: free.nodes k) : p ∉ .head j :: free.nodes j := by
  intro hp'
  rcases List.mem_cons.mp hp with rfl | hp <;> rcases List.mem_cons.mp hp' with hp' | hp'
  · exact hne (NodePtr.head.inj hp')
  · obtain ⟨c, -, -, hc⟩ := (mem_nodes hj).mp hp'
    cases hc
  · obtain ⟨c, -, -, hc⟩ := (mem_nodes hk).mp hp
    rw [hp'] at hc
    cases hc
  · obtain ⟨c, hc, hck, rfl⟩ := (mem_nodes hk).mp hp
    obtain ⟨d, hd, hdj, heq⟩ := (mem_nodes hj).mp hp'
    have := h.inj hc hd (NodePtr.page.inj heq)
    exact hne (by rw [← hck, this, hdj])

/-- **`buddy_add_free`** puts in a block that starts where no free block starts. -/
theorem buddyAddFree_holds (h : s.Holds free) (hk : b.order ≤ buddyMaxOrder)
    (hstop : b.stop ≤ s.totalPages.toNat) (hne : ∀ c ∈ free.blocks, blockIdx c ≠ blockIdx b) :
    (buddyAddFree (blockIdx b) b.order s).Holds (free.push b) := by
  have hnew : ∀ k ≤ buddyMaxOrder, .page (blockIdx b) ∉ .head b.order :: free.nodes k := by
    intro k hk' hmem
    rcases List.mem_cons.mp hmem with hmem | hmem
    · cases hmem
    · obtain ⟨c, hc, -, heq⟩ := (mem_nodes hk').mp hmem
      exact hne c hc (NodePtr.page.inj heq).symm
  constructor
  · intro k hk'
    rw [nodes_push]
    split
    · subst k
      exact listAddTail_ring (h.ring _ hk) (hnew _ hk)
    · rename_i hkb
      -- the nodes of the other lists are not written
      refine (h.ring k hk').congr fun p hp => listAddTail_apply (h.ring _ hk) (hnew _ hk) ?_
      intro hp'
      rcases List.mem_cons.mp hp' with rfl | hp'
      · rcases List.mem_cons.mp hp with hp | hp
        · cases hp
        · exact hnew k hk' (List.mem_cons_of_mem _ hp)
      · exact h.notMem_other hk hk' hkb hp hp'
  · intro c hc
    rcases (BuddyLists.mem_blocks_push hk).mp hc with rfl | hc
    exacts [hstop, h.stop_le c hc]
  · intro c hc
    show update _ _ _ _ = _ ∧ update _ _ _ _ = _
    rcases (BuddyLists.mem_blocks_push hk).mp hc with rfl | hc
    · rw [Function.update_self, Function.update_self]
      exact ⟨rfl, rfl⟩
    · rw [Function.update_of_ne (hne c hc), Function.update_of_ne (hne c hc)]
      exact h.tags c hc
  · intro i hi hfree
    by_cases heq : i = blockIdx b
    · subst heq
      exact ⟨b, (BuddyLists.mem_blocks_push hk).mpr (.inl rfl), rfl⟩
    · change update _ _ _ _ ≠ _ at hfree
      rw [Function.update_of_ne heq] at hfree
      obtain ⟨c, hc, hci⟩ := h.only i hi hfree
      exact ⟨c, (BuddyLists.mem_blocks_push hk).mpr (.inr hc), hci⟩
  · intro k hk'
    show update _ _ _ _ = _
    unfold BuddyLists.push
    by_cases hkb : k = b.order
    · subst hkb
      rw [Function.update_self, Function.update_self, h.count _ hk', List.length_append,
        List.length_singleton, BitVec.ofNat_add]
    · rw [Function.update_of_ne hkb, Function.update_of_ne hkb, h.count k hk']
  · show s.totalFree + _ = _
    rw [BuddyLists.pages_push hk, h.total, BitVec.ofNat_add, one_shiftLeft]

/-- **`buddy_remove_free`** takes a free block out. -/
theorem buddyRemoveFree_holds (h : s.Holds free) (hb : b ∈ free.blocks) :
    (buddyRemoveFree (blockIdx b) b.order s).Holds (free.erase b) := by
  have hk := hb.1
  have hmem : ∀ c, c ∈ (free.erase b).blocks ↔ c ∈ free.blocks ∧ c ≠ b :=
    fun c => BuddyLists.mem_blocks_erase (h.nodup hk)
  have hidx : ∀ c ∈ free.blocks, c ≠ b → blockIdx c ≠ blockIdx b :=
    fun c hc hne heq => hne (h.inj hc hb heq)
  -- where the block stands on its list
  obtain ⟨l₁, l₂, -, hlist, herase⟩ := List.exists_erase_eq hb.2
  have hnodes : free.nodes b.order = (l₁.map fun n => .page (blockIdx ⟨n, b.order⟩)) ++
      .page (blockIdx b) :: l₂.map fun n => .page (blockIdx ⟨n, b.order⟩) := by
    unfold BuddyLists.nodes
    rw [hlist, List.map_append, List.map_cons]
  have hring := h.ring _ hk
  rw [hnodes] at hring
  constructor
  · intro k hk'
    by_cases hkb : k = b.order
    · subst hkb
      have := listDel_ring hring
      rw [← List.map_append, ← herase] at this
      unfold BuddyLists.nodes BuddyLists.erase
      rwa [Function.update_self]
    · have hsame : (free.erase b).nodes k = free.nodes k := by
        unfold BuddyLists.nodes BuddyLists.erase
        rw [Function.update_of_ne hkb]
      rw [hsame]
      refine (h.ring k hk').congr fun p hp => listDel_apply hring ?_
      rw [← hnodes]
      exact h.notMem_other hk hk' hkb hp
  · exact fun c hc => h.stop_le c ((hmem c).mp hc).1
  · intro c hc
    obtain ⟨hc, hne⟩ := (hmem c).mp hc
    show update _ _ _ _ = _ ∧ _
    rw [Function.update_of_ne (hidx c hc hne)]
    exact h.tags c hc
  · intro i hi hfree
    by_cases heq : i = blockIdx b
    · subst heq
      exact absurd (Function.update_self ..) hfree
    · change update _ _ _ _ ≠ _ at hfree
      rw [Function.update_of_ne heq] at hfree
      obtain ⟨c, hc, rfl⟩ := h.only i hi hfree
      exact ⟨c, (hmem c).mpr ⟨hc, fun hcb => heq (by rw [hcb])⟩, rfl⟩
  · intro k hk'
    show update _ _ _ _ = _
    unfold BuddyLists.erase
    by_cases hkb : k = b.order
    · subst hkb
      have hpos := List.length_pos_of_mem hb.2
      rw [Function.update_self, Function.update_self, h.count _ hk', List.length_erase_of_mem hb.2,
        BitVec.ofNat_sub_ofNat_of_le _ _ (by decide) (by omega)]
    · rw [Function.update_of_ne hkb, Function.update_of_ne hkb, h.count k hk']
  · show s.totalFree - _ = _
    rw [h.total, ← BuddyLists.pages_erase hb, BitVec.ofNat_add, one_shiftLeft, BitVec.add_sub_cancel]

end Holds

end Microkernel.Pmm
