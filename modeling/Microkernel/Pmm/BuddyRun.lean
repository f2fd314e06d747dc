import Microkernel.Pmm.BuddyInit
import Mathlib.Algebra.Order.BigOperators.Group.Finset

/-! # Runs of the buddy allocator

The allocator together with the blocks its callers hold, as a machine that starts when the self-test of
`pmm_buddy_init` is over; and the two theorems about every run: the free lists, tags and counters agree
with each other and with the blocks held, and the free blocks are the maximal ones.

* **`BuddyClient`, `BuddyClient.Describes`** — the callers with the blocks they hold, and the invariant
  over them.
* **`buddy_run`** — lists, tags and counters agree with what is held, and an allocation fails only for
  want of a block.
* **`buddy_freeBlocks_maximal`** — the free blocks are the maximal ones, whatever was allocated and freed
  before.
-/

namespace Microkernel.Pmm

open DyadicBlock (Maximal)

/-! ### The allocator and its callers -/

/-- Steps 3 and 4 of `pmm_buddy_init` and its self-test, for one area. -/
def buddyInitArea (A : BuddyArea) (s : BuddyState) : Option BuddyState :=
  (buddyInitZone A.regionStart A.managedStart A.managedPages (buddyReset s)).bind buddySelftest

/-- A call of `buddy_alloc` with an order that has a free list, or of `buddy_free`. -/
inductive BuddyCall where
  | alloc (order : Fin (buddyMaxOrder + 1))
  | free (idx : U32) (order : ℕ)

/-- The allocator together with the blocks its callers hold: first page and order. -/
structure BuddyClient where
  /-- The statics. -/
  state : BuddyState
  /-- The allocated blocks that have not been freed. -/
  live : List (U32 × ℕ)

/-- One call. A caller frees only what it holds, with the order it asked for; other frees are not
made. -/
def buddyCall (c : BuddyClient) : BuddyCall → Option (BuddyClient × U32)
  | .alloc order =>
      (buddyAlloc order c.state).map fun r =>
        (⟨r.1, if r.2 = 0xFFFFFFFF#32 then c.live else (r.2, order.val) :: c.live⟩, r.2)
  | .free idx order =>
      if c.live.contains (idx, order) then
        some (⟨buddyFree idx order c.state, c.live.erase (idx, order)⟩, 0#32)
      else some (c, 0#32)

/-- The allocator as a machine. -/
def buddyMachine (s : BuddyState) : Machine BuddyClient BuddyCall U32 := ⟨⟨s, []⟩, buddyCall⟩

/-- The block with this first page and order has page `p` in it. -/
def BlockCovers (b : U32 × ℕ) (p : ℕ) : Prop := b.1.toNat ≤ p ∧ p < b.1.toNat + 2 ^ b.2

/-- **The free lists, the tags, the counters and the blocks held agree**: `free k` are the first pages of
the free blocks of order `k`, in list order. -/
structure BuddyClient.Consistent (c : BuddyClient) (free : ℕ → List U32) : Prop where
  /-- Every free list is circular around its sentinel, in both directions. -/
  linked : ∀ k ≤ buddyMaxOrder, c.state.nodes.Ring (.head k) ((free k).map NodePtr.page)
  /-- No block is linked twice. -/
  nodup : ∀ k ≤ buddyMaxOrder, (free k).Nodup
  aligned : ∀ k ≤ buddyMaxOrder, ∀ i ∈ free k, 2 ^ k ∣ i.toNat
  inside : ∀ k ≤ buddyMaxOrder, ∀ i ∈ free k, i.toNat + 2 ^ k ≤ c.state.totalPages.toNat
  /-- The pages tagged free are the first pages of the free blocks. -/
  isFree : ∀ i < c.state.totalPages, c.state.isFree i = 1#8 ↔ ∃ k ≤ buddyMaxOrder, i ∈ free k
  order : ∀ k ≤ buddyMaxOrder, ∀ i ∈ free k, c.state.order i = BitVec.ofNat 8 k
  count : ∀ k ≤ buddyMaxOrder, (c.state.freeCount k).toNat = (free k).length
  total : c.state.totalFree.toNat =
    ∑ k ∈ Finset.range (buddyMaxOrder + 1), 2 ^ k * (free k).length
  live_nodup : c.live.Nodup
  /-- Each page lies in exactly one free block or in exactly one allocated block. -/
  once : ∀ p < c.state.totalPages.toNat,
    (∃! b : U32 × ℕ, (b.2 ≤ buddyMaxOrder ∧ b.1 ∈ free b.2) ∧ BlockCovers b p) ∧
        (∀ b ∈ c.live, ¬ BlockCovers b p) ∨
      (∀ b : U32 × ℕ, b.2 ≤ buddyMaxOrder → b.1 ∈ free b.2 → ¬ BlockCovers b p) ∧
        ∃! b, b ∈ c.live ∧ BlockCovers b p

/-- **What `buddy_alloc` does next**: it fails exactly when no free block has the order asked for or a
higher one, and otherwise returns a block that meets no allocated block. -/
def BuddyClient.AllocatesSafely (c : BuddyClient) (free : ℕ → List U32) : Prop :=
  ∀ order ≤ buddyMaxOrder, ∃ s idx, buddyAlloc order c.state = some (s, idx) ∧
    (idx = 0xFFFFFFFF#32 ↔ ∀ k, order ≤ k → k ≤ buddyMaxOrder → free k = []) ∧
    (idx ≠ 0xFFFFFFFF#32 → ∀ b ∈ c.live, ∀ p, BlockCovers (idx, order) p → ¬ BlockCovers b p)

/-- The block stands on the free list of its order. -/
def BuddyState.IsFreeBlock (s : BuddyState) (b : DyadicBlock) : Prop :=
  b.order ≤ buddyMaxOrder ∧ ∃ l, s.nodes.Ring (.head b.order) l ∧
    ∃ i : U32, i.toNat = b.start ∧ .page i ∈ l

/-- The pages of the zone that no caller holds. -/
def BuddyClient.freePages (c : BuddyClient) : Set ℕ :=
  {p | p < c.state.totalPages.toNat ∧ ∀ b ∈ c.live, ¬ BlockCovers b p}

/-! ### The self-test -/

section Selftest
variable {s : BuddyState} {A : BuddyArea} {free : BuddyLists} {live : List DyadicBlock} {b : DyadicBlock}

/-- Giving a page back through its address. -/
theorem pmmBuddyFreePage_spec (h : s.Describes free [] live) (hA : s.Serves A) (hb : b ∈ live) :
    ∃ free', (pmmBuddyFreePage (indexToPhys s (blockIdx b)) s).Describes free' [] (live.erase b) ∧
      s.SameZone (pmmBuddyFreePage (indexToPhys s (blockIdx b)) s) := by
  rw [pmmBuddyFreePage_eq h hA hb]
  exact buddyFree_spec h hb

/-- The address of an index is a matter of the zone fields. -/
theorem indexToPhys_sameZone {s' : BuddyState} (h : s.SameZone s') (idx : U32) :
    indexToPhys s' idx = indexToPhys s idx := by
  unfold indexToPhys
  rw [h.basePhys]

/-- **The self-test** gives back what it takes. -/
theorem buddySelftest_spec (h : s.Describes free [] []) (hA : s.Serves A) :
    ∃ s' free', buddySelftest s = some s' ∧ s'.Describes free' [] [] ∧ s.SameZone s' := by
  unfold buddySelftest
  rcases pmmBuddyAllocPage_spec h hA with hres | ⟨s₁, free₁, b₁, hres₁, -, h₁, hsame₁⟩
  · -- no page at all
    refine ⟨s, free, ?_, h, .refl s⟩
    simp [hres]
  have hA₁ := hA.of_sameZone hsame₁
  have hlt₁ := blockIdx_lt (h₁.stop_le (.inr (List.mem_singleton_self b₁)))
  have hne₁ := indexToPhys_ne_zero hA₁ hlt₁
  rcases pmmBuddyAllocPage_spec h₁ hA₁ with hres | ⟨s₂, free₂, b₂, hres₂, -, h₂, hsame₂⟩
  · -- one page
    obtain ⟨free', hdesc, hsame⟩ := pmmBuddyFreePage_spec h₁ hA₁ (List.mem_singleton_self b₁)
    rw [List.erase_cons_head] at hdesc
    refine ⟨_, free', ?_, hdesc, hsame₁.trans hsame⟩
    simp [hres₁, hres, hne₁]
  · have hA₂ := hA₁.of_sameZone hsame₂
    have hmem₁ : b₁ ∈ [b₂, b₁] := by simp
    have hmem₂ : b₂ ∈ [b₂, b₁] := by simp
    have hlt₂ := blockIdx_lt (h₂.stop_le (.inr hmem₂))
    have hne₂ := indexToPhys_ne_zero hA₂ hlt₂
    -- the two pages are different
    have hb : b₂ ≠ b₁ := by
      have := (List.nodup_cons.mp h₂.nodup).1
      simpa using this
    have hne : indexToPhys s₁ (blockIdx b₁) ≠ indexToPhys s₂ (blockIdx b₂) := by
      intro heq
      rw [← indexToPhys_sameZone hsame₂] at heq
      have hlt₁' := blockIdx_lt (h₂.stop_le (.inr hmem₁))
      have hidx := congrArg (physToIndex s₂) heq
      rw [physToIndex_indexToPhys hA₂ hlt₁', physToIndex_indexToPhys hA₂ hlt₂] at hidx
      exact hb (h₂.inj (.inr hmem₂) (.inr hmem₁) hidx.symm)
    obtain ⟨free₃, h₃, hsame₃⟩ := pmmBuddyFreePage_spec h₂ hA₂ hmem₁
    rw [indexToPhys_sameZone hsame₂ (blockIdx b₁)] at h₃ hsame₃
    have hA₃ := hA₂.of_sameZone hsame₃
    have herase : [b₂, b₁].erase b₁ = [b₂] := by
      rw [List.erase_cons_tail (by simpa using hb), List.erase_cons_head]
    rw [herase] at h₃
    obtain ⟨free₄, h₄, hsame₄⟩ := pmmBuddyFreePage_spec h₃ hA₃ (List.mem_singleton_self b₂)
    rw [List.erase_cons_head] at h₄
    rw [indexToPhys_sameZone hsame₃ (blockIdx b₂)] at h₄ hsame₄
    refine ⟨_, free₄, ?_, h₄, ((hsame₁.trans hsame₂).trans hsame₃).trans hsame₄⟩
    simp [hres₁, hres₂, hne₁, hne₂, hne]

end Selftest

/-! ### The invariant of runs -/

/-- The callers hold the blocks `live`. -/
structure BuddyClient.Describes (c : BuddyClient) (free : BuddyLists) (live : List DyadicBlock) :
    Prop where
  state : c.state.Describes free [] live
  live_perm : c.live.Perm (live.map fun b => (blockIdx b, b.order))

section Client
variable {c : BuddyClient} {free : BuddyLists} {live : List DyadicBlock} {b : DyadicBlock} {p : ℕ}

/-- **One call** keeps the invariant and the zone. -/
theorem buddyCall_describes (h : c.Describes free live) (call : BuddyCall) :
    ∃ c' answer, buddyCall c call = some (c', answer) ∧ (∃ free' live', c'.Describes free' live') ∧
      c.state.SameZone c'.state := by
  cases call with
  | alloc order =>
    rcases buddyAlloc_spec h.state (Nat.lt_succ_iff.mp order.isLt) with ⟨hres, -⟩ |
      ⟨s', free', b, hres, hb, hdesc, hsame, -⟩
    · refine ⟨c, 0xFFFFFFFF#32, ?_, ⟨free, live, h⟩, .refl _⟩
      simp [buddyCall, hres]
    · have hne : blockIdx b ≠ 0xFFFFFFFF#32 := blockIdx_ne_max (hdesc.stop_le (.inr (by simp)))
      refine ⟨⟨s', (blockIdx b, order.val) :: c.live⟩, blockIdx b, ?_, ⟨free', b :: live, hdesc, ?_⟩, hsame⟩
      · simp [buddyCall, hres, hne]
      · rw [List.map_cons, hb]
        exact h.live_perm.cons _
  | free idx order =>
    by_cases hmem : c.live.contains (idx, order)
    · simp only [buddyCall, if_pos hmem]
      obtain ⟨b, hb, heq⟩ := List.mem_map.mp (h.live_perm.mem_iff.mp (List.contains_iff_mem.mp hmem))
      obtain ⟨rfl, rfl⟩ : blockIdx b = idx ∧ b.order = order := by simpa using heq
      obtain ⟨free', hdesc, hsame⟩ := buddyFree_spec h.state hb
      refine ⟨_, _, rfl, ⟨free', live.erase b, hdesc, ?_⟩, hsame⟩
      have hperm := h.live_perm.trans ((List.perm_cons_erase hb).map _)
      have := hperm.erase (blockIdx b, b.order)
      rwa [List.map_cons, List.erase_cons_head] at this
    · simp only [buddyCall, if_neg hmem]
      exact ⟨c, _, rfl, ⟨free, live, h⟩, .refl _⟩

/-- A block in numbers and in words. -/
theorem blockCovers_iff (hb : b.stop ≤ c.state.totalPages.toNat) :
    BlockCovers (blockIdx b, b.order) p ↔ p ∈ b := by
  unfold BlockCovers
  rw [blockIdx_toNat hb, DyadicBlock.mem_iff]
  rfl

/-- What a client holds are the live blocks, by index and order. -/
theorem BuddyClient.Describes.mem_live_iff (h : c.Describes free live) (x : U32 × ℕ) :
    x ∈ c.live ↔ ∃ b ∈ live, (blockIdx b, b.order) = x := by
  rw [h.live_perm.mem_iff, List.mem_map]

/-- The pages that callers hold. -/
theorem BuddyClient.Describes.covered_iff (h : c.Describes free live) :
    (∃ x ∈ c.live, BlockCovers x p) ↔ ∃ b ∈ live, p ∈ b := by
  constructor
  · rintro ⟨x, hx, hp⟩
    obtain ⟨b, hb, rfl⟩ := (h.mem_live_iff x).mp hx
    exact ⟨b, hb, (blockCovers_iff (h.state.stop_le (.inr hb))).mp hp⟩
  · rintro ⟨b, hb, hp⟩
    exact ⟨_, (h.mem_live_iff _).mpr ⟨b, hb, rfl⟩, (blockCovers_iff (h.state.stop_le (.inr hb))).mpr hp⟩

/-- The first pages of the free blocks. -/
def BuddyLists.firstPages (free : BuddyLists) (k : ℕ) : List U32 := (free k).map fun n => blockIdx ⟨n, k⟩

/-- The first pages listed are those of the free blocks of that order. -/
theorem mem_firstPages {k : ℕ} {i : U32} (hk : k ≤ buddyMaxOrder) :
    i ∈ free.firstPages k ↔ ∃ b ∈ free.blocks, b.order = k ∧ blockIdx b = i := by
  unfold BuddyLists.firstPages
  rw [List.mem_map]
  constructor
  · rintro ⟨n, hn, rfl⟩
    exact ⟨⟨n, k⟩, ⟨hk, hn⟩, rfl, rfl⟩
  · rintro ⟨⟨n, j⟩, hb, rfl, rfl⟩
    exact ⟨n, hb.2, rfl⟩

/-- The number of free pages does not wrap around. -/
theorem BuddyState.Describes.pages_lt {s : BuddyState} {hand : List DyadicBlock}
    (h : s.Describes free hand live) : free.pages < 2 ^ 32 := by
  have := h.size
  have := s.totalPages.isLt
  omega

/-- No list is longer than the zone. -/
theorem BuddyState.Describes.length_lt {s : BuddyState} {hand : List DyadicBlock}
    (h : s.Describes free hand live) {k : ℕ} (hk : k ≤ buddyMaxOrder) : (free k).length < 2 ^ 32 := by
  have hle : 2 ^ k * (free k).length ≤ free.pages :=
    Finset.single_le_sum (f := fun k => 2 ^ k * (free k).length) (fun _ _ => Nat.zero_le _)
      (Finset.mem_range.mpr (by omega))
  have hpos : 1 * (free k).length ≤ 2 ^ k * (free k).length :=
    Nat.mul_le_mul_right _ (Nat.one_le_two_pow)
  have := h.pages_lt
  omega

/-- **The invariant says that everything agrees.** -/
theorem BuddyClient.Describes.consistent (h : c.Describes free live) :
    c.Consistent free.firstPages := by
  have hs := h.state
  have hholds := hs.holds
  have hstop : ∀ b ∈ free.blocks, b.stop ≤ c.state.totalPages.toNat := fun b hb => hs.stop_le (.inl hb)
  constructor
  · intro k hk
    have hring := hholds.ring k hk
    unfold BuddyLists.nodes at hring
    unfold BuddyLists.firstPages
    rwa [List.map_map]
  · intro k hk
    have hnd := (List.nodup_cons.mp (hholds.ring k hk).nodup).2
    unfold BuddyLists.nodes at hnd
    unfold BuddyLists.firstPages
    exact List.Nodup.of_map NodePtr.page (by rwa [List.map_map])
  · intro k hk i hi
    obtain ⟨b, hb, rfl, rfl⟩ := (mem_firstPages hk).mp hi
    rw [blockIdx_toNat (hstop b hb)]
    exact Nat.dvd_mul_left ..
  · intro k hk i hi
    obtain ⟨b, hb, rfl, rfl⟩ := (mem_firstPages hk).mp hi
    rw [blockIdx_toNat (hstop b hb)]
    exact hstop b hb
  · intro i hi
    constructor
    · intro hfree
      obtain ⟨b, hb, rfl⟩ := hholds.only i hi (by rw [hfree]; decide)
      exact ⟨b.order, hb.1, (mem_firstPages hb.1).mpr ⟨b, hb, rfl, rfl⟩⟩
    · rintro ⟨k, hk, hi⟩
      obtain ⟨b, hb, -, rfl⟩ := (mem_firstPages hk).mp hi
      exact (hholds.tags b hb).1
  · intro k hk i hi
    obtain ⟨b, hb, rfl, rfl⟩ := (mem_firstPages hk).mp hi
    exact (hholds.tags b hb).2
  · intro k hk
    unfold BuddyLists.firstPages
    rw [hholds.count k hk, List.length_map, BitVec.toNat_ofNat, Nat.mod_eq_of_lt (hs.length_lt hk)]
  · unfold BuddyLists.firstPages
    simp only [List.length_map]
    rw [hholds.total, BitVec.toNat_ofNat, Nat.mod_eq_of_lt hs.pages_lt]
    rfl
  · rw [h.live_perm.nodup_iff]
    refine List.Nodup.map_on (fun b hb d hd heq => ?_) hs.nodup
    exact hs.inj (.inr hb) (.inr hd) (by simpa using congrArg Prod.fst heq)
  · intro p hp
    obtain ⟨b, hb, hpb⟩ := (hs.tiles.mem_iff p).mp hp
    -- every other block that covers the page is this one
    have hfree : ∀ x : U32 × ℕ, x.2 ≤ buddyMaxOrder → x.1 ∈ free.firstPages x.2 → BlockCovers x p →
        b ∈ free.blocks ∧ (blockIdx b, b.order) = x := by
      rintro ⟨i, k⟩ hk hi hx
      obtain ⟨d, hd, rfl, rfl⟩ := (mem_firstPages hk).mp hi
      obtain rfl := hs.tiles.unique b hb d (.inl hd) p hpb ((blockCovers_iff (hstop d hd)).mp hx)
      exact ⟨hd, rfl⟩
    have hlive : ∀ x ∈ c.live, BlockCovers x p → b ∈ live ∧ (blockIdx b, b.order) = x := by
      intro x hx hxp
      obtain ⟨d, hd, rfl⟩ := (h.mem_live_iff x).mp hx
      obtain rfl := hs.tiles.unique b hb d (.inr hd) p hpb
        ((blockCovers_iff (hs.stop_le (.inr hd))).mp hxp)
      exact ⟨hd, rfl⟩
    have hcov := (blockCovers_iff (hs.stop_le hb)).mpr hpb
    rcases hb with hb | hb
    · left
      refine ⟨⟨_, ⟨⟨hb.1, (mem_firstPages hb.1).mpr ⟨b, hb, rfl, rfl⟩⟩, hcov⟩, ?_⟩, fun x hx hxp => ?_⟩
      · rintro x ⟨⟨hk, hi⟩, hxp⟩
        exact (hfree x hk hi hxp).2.symm
      · exact hs.disjoint b hb (hlive x hx hxp).1
    · right
      refine ⟨fun x hk hi hxp => ?_, _, ⟨(h.mem_live_iff _).mpr ⟨b, hb, rfl⟩, hcov⟩, ?_⟩
      · exact hs.disjoint b (hfree x hk hi hxp).1 hb
      · rintro x ⟨hx, hxp⟩
        exact (hlive x hx hxp).2.symm

/-- The invariant says what `buddy_alloc` does next. -/
theorem BuddyClient.Describes.allocatesSafely (h : c.Describes free live) :
    c.AllocatesSafely free.firstPages := by
  intro order ho
  rcases buddyAlloc_spec h.state ho with ⟨hres, hnone⟩ | ⟨s', free', b, hres, hb, hdesc, hsame, d, hd, hod⟩
  · refine ⟨_, _, hres, ⟨fun _ k h₁ h₂ => ?_, fun _ => rfl⟩, fun hne => absurd rfl hne⟩
    rw [List.eq_nil_iff_forall_not_mem]
    intro i hi
    obtain ⟨d, hd, rfl, -⟩ := (mem_firstPages h₂).mp hi
    have := hnone d hd
    omega
  · have hbmem : b ∈ b :: live := by simp
    have hne : blockIdx b ≠ 0xFFFFFFFF#32 := blockIdx_ne_max (hdesc.stop_le (.inr hbmem))
    refine ⟨s', _, hres, ⟨fun hmax => absurd hmax hne, fun hall => ?_⟩, fun _ x hx p hp hxp => ?_⟩
    · have hmem := (mem_firstPages hd.1).mpr ⟨d, hd, rfl, rfl⟩
      rw [hall d.order hod hd.1] at hmem
      exact absurd hmem List.not_mem_nil
    · -- the block found tiles the zone together with those that callers hold
      subst hb
      obtain ⟨e, he, rfl⟩ := (h.mem_live_iff x).mp hx
      have hpb : p ∈ b := (blockCovers_iff (c := ⟨s', []⟩) (hdesc.stop_le (.inr hbmem))).mp hp
      have hpe : p ∈ e := (blockCovers_iff (h.state.stop_le (.inr he))).mp hxp
      obtain rfl := hdesc.tiles.unique b (.inr hbmem) e (.inr (List.mem_cons_of_mem _ he)) p hpb hpe
      exact (List.nodup_cons.mp hdesc.nodup).1 he

/-- The blocks on the free lists. -/
theorem BuddyState.Holds.isFreeBlock_iff {s : BuddyState} (h : s.Holds free) :
    s.IsFreeBlock b ↔ b ∈ free.blocks := by
  constructor
  · rintro ⟨hk, l, hring, i, hi, hmem⟩
    rw [Ring.eq hring (h.ring _ hk)] at hmem
    obtain ⟨d, hd, hdk, heq⟩ := (mem_nodes hk).mp hmem
    have hstart := blockIdx_toNat (h.stop_le d hd)
    rw [← NodePtr.page.inj heq, hi] at hstart
    have hbd : b = d := by
      refine DyadicBlock.eq_of_order_eq b.start_mem ?_ hdk.symm
      rw [hstart]
      exact d.start_mem
    rwa [hbd]
  · intro hb
    refine ⟨hb.1, _, h.ring _ hb.1, blockIdx b, blockIdx_toNat (h.stop_le b hb), ?_⟩
    exact (mem_nodes hb.1).mpr ⟨b, hb, rfl, rfl⟩

/-- **The free blocks are the maximal blocks of free pages.** -/
theorem BuddyClient.Describes.isFreeBlock_iff_maximal (h : c.Describes free live) :
    c.state.IsFreeBlock b ↔ Maximal buddyMaxOrder c.freePages b := by
  have hs := h.state
  have hpages : c.freePages = {p | ∃ b ∈ free.blocks, p ∈ b} := by
    ext p
    have hcov := h.covered_iff (p := p)
    constructor
    · rintro ⟨hp, hno⟩
      obtain ⟨b, hb | hb, hpb⟩ := (hs.tiles.mem_iff p).mp hp
      · exact ⟨b, hb, hpb⟩
      · obtain ⟨x, hx, hxp⟩ := hcov.mpr ⟨b, hb, hpb⟩
        exact absurd hxp (hno x hx)
    · rintro ⟨b, hb, hpb⟩
      refine ⟨(hs.tiles.mem_iff p).mpr ⟨b, .inl hb, hpb⟩, fun x hx hxp => ?_⟩
      obtain ⟨d, hd, hpd⟩ := hcov.mp ⟨x, hx, hxp⟩
      obtain rfl := hs.tiles.unique b (.inl hb) d (.inr hd) p hpb hpd
      exact hs.disjoint b hb hd
  have htiles := hs.tiles.subset (F := free.blocks) fun b hb => .inl hb
  rw [hs.holds.isFreeBlock_iff, hpages]
  exact htiles.mem_iff_maximal (fun b hb => hb.1) hs.coalesced

end Client

/-- Initialisation, and every run after it. -/
theorem buddy_run_describes (A : BuddyArea) (s₀ : BuddyState) :
    ∃ tiled s free₀, buddyInitZone A.regionStart A.managedStart A.managedPages (buddyReset s₀) =
        some tiled ∧ buddyInitArea A s₀ = some s ∧ tiled.Describes free₀ [] [] ∧
      ∀ calls, ∃ c answers, (buddyMachine s).run calls = some (c, answers) ∧
        (∃ free live, c.Describes free live) ∧ c.state.totalPages = tiled.totalPages := by
  obtain ⟨tiled, free₀, hinit, hdesc, hbase, htotal, hready⟩ := buddyInitZone_spec A s₀
  obtain ⟨s, free, hself, hs, hsame⟩ := buddySelftest_spec hdesc ⟨hbase, htotal, hready⟩
  refine ⟨tiled, s, free₀, hinit, ?_, hdesc, fun calls => ?_⟩
  · unfold buddyInitArea
    rw [hinit, Option.bind_some, hself]
  · obtain ⟨c, answers, hrun, hc, htot⟩ := Machine.run_invariant (M := buddyMachine s)
      (I := fun c => (∃ free live, c.Describes free live) ∧ c.state.totalPages = tiled.totalPages)
      ⟨⟨free, [], hs, .refl _⟩, hsame.totalPages⟩
      (fun c call ⟨⟨_, _, hc⟩, htot⟩ => by
        obtain ⟨c', answer, hcall, hc', hsame'⟩ := buddyCall_describes hc call
        exact ⟨c', answer, hcall, hc', hsame'.totalPages.trans htot⟩) calls
    exact ⟨c, answers, hrun, hc, htot⟩

/-- **In every run the free lists, the tags, the counters and the blocks held agree**, whatever the size
of the zone, and `buddy_alloc` fails only for want of a block and never hands out a page twice. -/
theorem buddy_run (A : BuddyArea) (s₀ : BuddyState) :
    ∃ s, buddyInitArea A s₀ = some s ∧
      ∀ calls, ∃ c answers free, (buddyMachine s).run calls = some (c, answers) ∧
        c.Consistent free ∧ c.AllocatesSafely free := by
  obtain ⟨tiled, s, free₀, -, hs, -, hruns⟩ := buddy_run_describes A s₀
  refine ⟨s, hs, fun calls => ?_⟩
  obtain ⟨c, answers, hrun, ⟨free, live, hc⟩, -⟩ := hruns calls
  exact ⟨c, answers, free.firstPages, hrun, hc.consistent, hc.allocatesSafely⟩

/-- **Coalescing is complete and history-free**: in every run the free blocks are the maximal aligned
blocks of free pages, no two buddies are both free, and when nothing is allocated the free blocks are
those that the tiling built. -/
theorem buddy_freeBlocks_maximal (A : BuddyArea) (s₀ : BuddyState) :
    ∃ tiled s, buddyInitZone A.regionStart A.managedStart A.managedPages (buddyReset s₀) = some tiled ∧
      buddyInitArea A s₀ = some s ∧
      ∀ calls, ∃ c answers, (buddyMachine s).run calls = some (c, answers) ∧
        (∀ b, c.state.IsFreeBlock b ↔ Maximal buddyMaxOrder c.freePages b) ∧
        (∀ b : DyadicBlock, b.order < buddyMaxOrder →
          ¬ (c.state.IsFreeBlock b ∧ c.state.IsFreeBlock b.buddy)) ∧
        (c.live = [] → ∀ b, c.state.IsFreeBlock b ↔ tiled.IsFreeBlock b) := by
  obtain ⟨tiled, s, free₀, hinit, hs, htiled, hruns⟩ := buddy_run_describes A s₀
  refine ⟨tiled, s, hinit, hs, fun calls => ?_⟩
  obtain ⟨c, answers, hrun, ⟨free, live, hc⟩, htot⟩ := hruns calls
  refine ⟨c, answers, hrun, fun b => hc.isFreeBlock_iff_maximal, fun b hlt hboth => ?_, fun hlive b => ?_⟩
  · rw [hc.state.holds.isFreeBlock_iff, hc.state.holds.isFreeBlock_iff] at hboth
    exact hc.state.coalesced b hboth.1 hlt hboth.2
  · -- both are the maximal blocks of the whole zone
    have htiled' : BuddyClient.Describes ⟨tiled, []⟩ free₀ [] := ⟨htiled, .refl _⟩
    have hpages : c.freePages = BuddyClient.freePages ⟨tiled, []⟩ := by
      unfold BuddyClient.freePages
      rw [hlive, htot]
    rw [hc.isFreeBlock_iff_maximal, hpages]
    exact htiled'.isFreeBlock_iff_maximal.symm

end Microkernel.Pmm
