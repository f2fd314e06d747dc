import Mathlib.Algebra.Group.Nat.Defs
import Mathlib.Data.Nat.Bitwise
import Mathlib.Data.Set.Insert

/-! # Dyadic blocks

A dyadic block is a range of `2 ^ k` numbers that starts at a multiple of `2 ^ k`; `k` is its order. Two
blocks are nested or disjoint. A block and its buddy are the two halves of their parent. Sets of blocks
that tile a set of numbers, what splitting a block and merging two buddies do to them, and the tiling
that no merge can shorten: it is made of the maximal blocks, so the set of numbers determines it.

* **`mem_parent`, `subset_cases`** — the arithmetic of halves and of nesting.
* **`Tiles.split`, `Tiles.merge`** — the two moves that keep a tiling.
* **`Tiles.mem_iff_maximal`** — the tiling in which no two buddies stand side by side is the set of
  maximal blocks.
* **`GreedyPoint`** — the positions that a greedy tiling from 0 on comes to.
-/

namespace Microkernel

/-- The block of the numbers `p` with `p / 2 ^ order = number`: every value is aligned. -/
@[ext] structure DyadicBlock where
  /-- How many blocks of this order lie in front. -/
  number : ℕ
  /-- The block holds `2 ^ order` numbers. -/
  order : ℕ
deriving DecidableEq

namespace DyadicBlock

/-- The first number of the block. -/
def start (b : DyadicBlock) : ℕ := b.number * 2 ^ b.order

/-- The first number behind the block. -/
def stop (b : DyadicBlock) : ℕ := b.start + 2 ^ b.order

instance : Membership ℕ DyadicBlock := ⟨fun b p => p / 2 ^ b.order = b.number⟩

instance (p : ℕ) (b : DyadicBlock) : Decidable (p ∈ b) :=
  inferInstanceAs (Decidable (p / 2 ^ b.order = b.number))

/-- The other half of the parent. -/
def buddy (b : DyadicBlock) : DyadicBlock := ⟨b.number ^^^ 1, b.order⟩

/-- The block of the next order around `b`. -/
def parent (b : DyadicBlock) : DyadicBlock := ⟨b.number / 2, b.order + 1⟩

/-- The first half of a block of positive order. -/
def lower (b : DyadicBlock) : DyadicBlock := ⟨2 * b.number, b.order - 1⟩

variable {b c : DyadicBlock} {p : ℕ}

/-! ### Members -/

/-- Membership compares the number of the block of this order that a position falls in. -/
theorem mem_def : p ∈ b ↔ p / 2 ^ b.order = b.number := Iff.rfl

/-- The positions of a block are those from its start up to its stop. -/
theorem mem_iff : p ∈ b ↔ b.start ≤ p ∧ p < b.stop := by
  have hpos : 0 < 2 ^ b.order := Nat.two_pow_pos _
  unfold stop start
  rw [mem_def, Nat.div_eq_iff hpos]
  omega

/-- A block is never empty: it contains its start. -/
theorem start_mem (b : DyadicBlock) : b.start ∈ b := by
  rw [mem_iff]
  have : 0 < 2 ^ b.order := Nat.two_pow_pos _
  unfold stop
  omega

/-- Of two blocks with a common number the one of lower order lies in the other. -/
theorem mem_of_order_le (hb : p ∈ b) (hc : p ∈ c) (hle : b.order ≤ c.order) :
    ∀ q ∈ b, q ∈ c := by
  intro q hq
  have hpow : 2 ^ c.order = 2 ^ b.order * 2 ^ (c.order - b.order) := by
    rw [← pow_add, Nat.add_sub_cancel' hle]
  rw [mem_def] at hb hc hq ⊢
  rw [hpow, ← Nat.div_div_eq_div_mul] at hc ⊢
  rw [hq, ← hb, hc]

/-- Two blocks of one order are equal or disjoint. -/
theorem eq_of_order_eq (hb : p ∈ b) (hc : p ∈ c) (heq : b.order = c.order) : b = c := by
  rw [mem_def] at hb hc
  rw [heq, hc] at hb
  exact DyadicBlock.ext hb.symm heq

/-! ### Buddies -/

/-- Flipping the lowest bit moves to the other number of an even-odd pair. -/
theorem xor_one (n : ℕ) : n ^^^ 1 = n + 1 - 2 * (n % 2) := by
  have hdiv : (n ^^^ 1) / 2 = n / 2 := by rw [Nat.xor_div_two, Nat.xor_zero]
  have hmod : (n ^^^ 1) % 2 = (n + 1) % 2 := Nat.xor_mod_two_eq
  omega

/-- The buddy has the same order. -/
@[simp] theorem buddy_order (b : DyadicBlock) : b.buddy.order = b.order := rfl

/-- The parent is one order up. -/
@[simp] theorem parent_order (b : DyadicBlock) : b.parent.order = b.order + 1 := rfl

/-- Taking the buddy twice gives the block back. -/
@[simp] theorem buddy_buddy (b : DyadicBlock) : b.buddy.buddy = b := by
  unfold buddy
  rw [Nat.xor_assoc, Nat.xor_self, Nat.xor_zero]

/-- No block is its own buddy. -/
theorem buddy_ne (b : DyadicBlock) : b.buddy ≠ b := by
  intro h
  have hnum := congrArg number h
  unfold buddy at hnum
  dsimp only at hnum
  rw [xor_one] at hnum
  omega

/-- A block and its buddy have one parent. -/
@[simp] theorem parent_buddy (b : DyadicBlock) : b.buddy.parent = b.parent := by
  unfold parent buddy
  rw [Nat.xor_div_two, Nat.xor_zero]

/-- The buddy starts where one bit of the start is flipped, which is how an allocator computes it. -/
theorem start_buddy (b : DyadicBlock) : b.buddy.start = b.start ^^^ 2 ^ b.order := by
  unfold start buddy
  dsimp only
  rw [← Nat.shiftLeft_eq, ← Nat.shiftLeft_eq, Nat.shiftLeft_xor_distrib, Nat.one_shiftLeft]

/-- The lower half is one order down. -/
@[simp] theorem lower_order (b : DyadicBlock) : b.lower.order = b.order - 1 := rfl

/-- The lower half of a block has that block as its parent. -/
theorem parent_lower (h : 0 < b.order) : b.lower.parent = b := by
  refine DyadicBlock.ext ?_ (Nat.sub_add_cancel h)
  show 2 * b.number / 2 = b.number
  omega

/-- The lower half starts where the block does. -/
theorem start_lower (h : 0 < b.order) : b.lower.start = b.start := by
  obtain ⟨k, hk⟩ : ∃ k, b.order = k + 1 := ⟨b.order - 1, by omega⟩
  unfold start lower
  dsimp only
  rw [hk, Nat.add_sub_cancel, pow_succ, Nat.mul_comm 2, Nat.mul_assoc, Nat.mul_comm 2]

/-- The second half starts behind the first. -/
theorem start_buddy_lower (h : 0 < b.order) :
    b.lower.buddy.start = b.start + 2 ^ (b.order - 1) := by
  rw [← start_lower h]
  unfold start buddy lower
  dsimp only
  have hxor : 2 * b.number ^^^ 1 = 2 * b.number + 1 := by
    rw [xor_one]
    omega
  rw [hxor, Nat.add_mul, Nat.one_mul]

/-- Blocks of different orders are different blocks. -/
theorem ne_of_order_ne (h : b.order ≠ c.order) : b ≠ c := fun heq => h (by rw [heq])

/-- **A block and its buddy are the two halves of their parent.** -/
theorem mem_parent : p ∈ b.parent ↔ p ∈ b ∨ p ∈ b.buddy := by
  have hdiv : p / 2 ^ (b.order + 1) = p / 2 ^ b.order / 2 := by
    rw [pow_succ, Nat.div_div_eq_div_mul]
  have hxor := xor_one b.number
  rw [mem_def, mem_def, mem_def]
  unfold parent buddy
  dsimp only
  rw [hdiv]
  omega

/-- The parent starts where the block or its buddy starts. -/
theorem start_parent_cases (b : DyadicBlock) :
    b.parent.start = b.start ∨ b.parent.start = b.buddy.start := by
  have hstart : ∀ c : DyadicBlock, c.parent = b.parent → b.parent.start ∈ c →
      b.parent.start = c.start := by
    intro c hc hin
    have hcin : c.start ∈ b.parent := by
      rw [← hc]
      exact mem_parent.mpr (.inl c.start_mem)
    exact le_antisymm (mem_iff.mp hcin).1 (mem_iff.mp hin).1
  exact (mem_parent.mp b.parent.start_mem).imp (hstart b rfl) (hstart b.buddy b.parent_buddy)

/-- The parent ends where the block or its buddy ends, or before. -/
theorem stop_parent_le {n : ℕ} (hb : b.stop ≤ n) (hbuddy : b.buddy.stop ≤ n) : b.parent.stop ≤ n := by
  have hpos : 0 < 2 ^ b.parent.order := Nat.two_pow_pos _
  have hlast : b.parent.stop - 1 ∈ b.parent := by
    rw [mem_iff]
    unfold stop
    omega
  rcases mem_parent.mp hlast with hin | hin
  all_goals
    have := (mem_iff.mp hin).2
    omega

/-- A block of higher order that meets `b` holds the parent of `b`. -/
theorem parent_le (hb : p ∈ b) (hc : p ∈ c) (hlt : b.order < c.order) : ∀ q ∈ b.parent, q ∈ c :=
  mem_of_order_le (mem_parent.mpr (.inl hb)) hc hlt

/-- A block has no lower order than a block inside it. -/
theorem order_le_of_subset (h : ∀ p ∈ b, p ∈ c) : b.order ≤ c.order := by
  by_contra hlt
  have hpow : 2 ^ c.order < 2 ^ b.order := Nat.pow_lt_pow_right (by decide) (by omega)
  have hpos : 0 < 2 ^ c.order := Nat.two_pow_pos _
  have hlast : b.start + (2 ^ b.order - 1) ∈ b := by
    rw [mem_iff]
    unfold stop
    omega
  -- the first and the last number of `b`
  have h₁ := mem_iff.mp (h _ b.start_mem)
  have h₂ := mem_iff.mp (h _ hlast)
  unfold stop at h₁ h₂
  omega

/-- A block around `b` is `b` or holds its parent. -/
theorem subset_cases (h : ∀ p ∈ b, p ∈ c) : c = b ∨ ∀ p ∈ b.parent, p ∈ c := by
  have hmem := h _ b.start_mem
  rcases (order_le_of_subset h).lt_or_eq with hlt | heq
  · exact .inr (parent_le b.start_mem hmem hlt)
  · exact .inl (eq_of_order_eq b.start_mem hmem heq).symm

/-! ### Tilings -/

/-- The blocks of `B` are disjoint, and the numbers in them are those of `P`. -/
structure Tiles (P : Set ℕ) (B : Set DyadicBlock) : Prop where
  mem_iff : ∀ p, p ∈ P ↔ ∃ b ∈ B, p ∈ b
  unique : ∀ b ∈ B, ∀ c ∈ B, ∀ p, p ∈ b → p ∈ c → b = c

variable {P : Set ℕ} {B F : Set DyadicBlock} {K : ℕ}

/-- Some of the blocks tile the numbers in them. -/
theorem Tiles.subset (h : Tiles P B) (hsub : F ⊆ B) : Tiles {p | ∃ b ∈ F, p ∈ b} F :=
  ⟨fun _ => Iff.rfl, fun b hb c hc => h.unique b (hsub hb) c (hsub hc)⟩

/-- A tiling has no block together with its parent. -/
theorem Tiles.parent_notMem (h : Tiles P B) (hb : b ∈ B) : b.parent ∉ B := by
  intro hmem
  have hparent := h.unique b hb b.parent hmem b.start b.start_mem (mem_parent.mpr (.inl b.start_mem))
  exact ne_of_order_ne (by simp) hparent

/-- **Splitting** a block of a tiling into its halves gives a tiling. -/
theorem Tiles.split (h : Tiles P B) (hb : b.parent ∈ B) :
    Tiles P {c | c = b ∨ c = b.buddy ∨ c ∈ B ∧ c ≠ b.parent} := by
  -- a half meets no other block of the tiling
  have hhalf : ∀ d, d = b ∨ d = b.buddy → ∀ c ∈ B, c ≠ b.parent → ∀ p ∈ d, p ∉ c := by
    intro d hd c hc hne p hpd hpc
    have hp : p ∈ b.parent := by
      rw [mem_parent]
      rcases hd with rfl | rfl
      exacts [.inl hpd, .inr hpd]
    exact hne (h.unique c hc b.parent hb p hpc hp)
  have hpair : ∀ d e, d = b ∨ d = b.buddy → e = b ∨ e = b.buddy → ∀ p, p ∈ d → p ∈ e → d = e := by
    intro d e hd he p hpd hpe
    refine eq_of_order_eq hpd hpe ?_
    rcases hd with rfl | rfl <;> rcases he with rfl | rfl <;> rfl
  constructor
  · intro p
    rw [h.mem_iff]
    constructor
    · rintro ⟨c, hc, hp⟩
      by_cases hcb : c = b.parent
      · subst hcb
        rcases mem_parent.mp hp with hp | hp
        exacts [⟨b, .inl rfl, hp⟩, ⟨b.buddy, .inr (.inl rfl), hp⟩]
      · exact ⟨c, .inr (.inr ⟨hc, hcb⟩), hp⟩
    · rintro ⟨c, rfl | rfl | ⟨hc, -⟩, hp⟩
      exacts [⟨_, hb, mem_parent.mpr (.inl hp)⟩, ⟨_, hb, mem_parent.mpr (.inr hp)⟩, ⟨c, hc, hp⟩]
  · rintro d hd e he p hpd hpe
    rcases or_assoc.mpr hd with hd | ⟨hd, hdne⟩ <;> rcases or_assoc.mpr he with he | ⟨he, hene⟩
    · exact hpair d e hd he p hpd hpe
    · exact absurd hpe (hhalf d hd e he hene p hpd)
    · exact absurd hpd (hhalf e he d hd hdne p hpe)
    · exact h.unique d hd e he p hpd hpe

/-- **Merging** two buddies of a tiling into their parent gives a tiling. -/
theorem Tiles.merge (h : Tiles P B) (hb : b ∈ B) (hbuddy : b.buddy ∈ B) :
    Tiles P {c | c = b.parent ∨ c ∈ B ∧ c ≠ b ∧ c ≠ b.buddy} := by
  -- the parent meets no block but the two halves
  have hparent : ∀ c ∈ B, c ≠ b → c ≠ b.buddy → ∀ p ∈ b.parent, p ∉ c := by
    intro c hc hne hne' p hp hpc
    rcases mem_parent.mp hp with hp | hp
    · exact hne (h.unique c hc b hb p hpc hp)
    · exact hne' (h.unique c hc b.buddy hbuddy p hpc hp)
  constructor
  · intro p
    rw [h.mem_iff]
    constructor
    · rintro ⟨c, hc, hp⟩
      by_cases hcb : c = b
      · subst hcb
        exact ⟨_, .inl rfl, mem_parent.mpr (.inl hp)⟩
      by_cases hcb' : c = b.buddy
      · subst hcb'
        exact ⟨_, .inl rfl, mem_parent.mpr (.inr hp)⟩
      · exact ⟨c, .inr ⟨hc, hcb, hcb'⟩, hp⟩
    · rintro ⟨c, rfl | ⟨hc, -, -⟩, hp⟩
      · rcases mem_parent.mp hp with hp | hp
        exacts [⟨b, hb, hp⟩, ⟨b.buddy, hbuddy, hp⟩]
      · exact ⟨c, hc, hp⟩
  · rintro d (rfl | ⟨hd, hd₁, hd₂⟩) e (rfl | ⟨he, he₁, he₂⟩) p hpd hpe
    · rfl
    · exact absurd hpe (hparent e he he₁ he₂ p hpd)
    · exact absurd hpd (hparent d hd hd₁ hd₂ p hpe)
    · exact h.unique d hd e he p hpd hpe

/-! ### Maximal blocks -/

/-- No two buddies of an order below `K` are both in `F`. -/
def Coalesced (K : ℕ) (F : Set DyadicBlock) : Prop := ∀ b ∈ F, b.order < K → b.buddy ∉ F

/-- A largest block of order at most `K` inside `P`. -/
structure Maximal (K : ℕ) (P : Set ℕ) (b : DyadicBlock) : Prop where
  order_le : b.order ≤ K
  subset : ∀ p ∈ b, p ∈ P
  eq_of_subset : ∀ c : DyadicBlock, c.order ≤ K → (∀ p ∈ c, p ∈ P) → (∀ p ∈ b, p ∈ c) → c = b

/-- The parent of a maximal block, if it has one of such an order, leaves the set. -/
theorem Maximal.leaves (h : Maximal K P b) (hlt : b.order < K) : ∃ p ∈ b.parent, p ∉ P := by
  by_contra hall
  have heq := h.eq_of_subset b.parent hlt (fun p hp => by
    by_contra hp'
    exact hall ⟨p, hp, hp'⟩) fun p hp => mem_parent.mpr (.inl hp)
  exact ne_of_order_ne (by simp) heq

/-- It is enough to look at the parent. -/
theorem Maximal.of_leaves (hle : b.order ≤ K) (hsub : ∀ p ∈ b, p ∈ P)
    (hleaves : b.order < K → ∃ p ∈ b.parent, p ∉ P) : Maximal K P b := by
  refine ⟨hle, hsub, fun c hc hcP hbc => ?_⟩
  rcases subset_cases hbc with rfl | hparent
  · rfl
  · obtain ⟨p, hp, hpP⟩ := hleaves (lt_of_lt_of_le (order_le_of_subset hparent) hc)
    exact absurd (hcP p (hparent p hp)) hpP

/-- Two maximal blocks are equal or disjoint. -/
theorem Maximal.eq_of_mem (hb : Maximal K P b) (hc : Maximal K P c) (hpb : p ∈ b) (hpc : p ∈ c) :
    b = c := by
  -- were one of lower order, the other would hold its parent
  have hnlt : ∀ {d e : DyadicBlock}, Maximal K P d → Maximal K P e → p ∈ d → p ∈ e →
      ¬ d.order < e.order := by
    intro d e hd he hpd hpe hlt
    obtain ⟨q, hq, hqP⟩ := hd.leaves (by have := he.order_le; omega)
    exact hqP (he.subset q (parent_le hpd hpe hlt q hq))
  refine eq_of_order_eq hpb hpc ?_
  have := hnlt hb hc hpb hpc
  have := hnlt hc hb hpc hpb
  omega

/-- In a tiling without two buddies a block of the tiling holds every block inside the set. -/
theorem Tiles.exists_le (h : Tiles P F) (hco : Coalesced K F) {k : ℕ} :
    ∀ {c : DyadicBlock}, c.order = k → k ≤ K → (∀ p ∈ c, p ∈ P) → ∃ b ∈ F, ∀ p ∈ c, p ∈ b := by
  induction k with
  | zero =>
    intro c hk _ hc
    obtain ⟨b, hb, hpb⟩ := (h.mem_iff _).mp (hc _ c.start_mem)
    exact ⟨b, hb, mem_of_order_le c.start_mem hpb (by omega)⟩
  | succ k ih =>
    intro c hk hK hc
    -- the two halves of the block
    obtain ⟨b, rfl, hbk⟩ : ∃ b : DyadicBlock, b.parent = c ∧ b.order = k :=
      ⟨c.lower, parent_lower (by omega), by rw [lower_order, hk, Nat.add_sub_cancel]⟩
    obtain ⟨d, hd, hbd⟩ := ih hbk (by omega) fun p hp => hc p (mem_parent.mpr (.inl hp))
    obtain ⟨e, he, hbe⟩ := @ih b.buddy hbk (by omega) fun p hp => hc p (mem_parent.mpr (.inr hp))
    rcases subset_cases hbd with rfl | hparent
    · rcases subset_cases hbe with rfl | hparent
      · exact absurd he (hco d hd (by omega))
      · exact ⟨e, he, by simpa using hparent⟩
    · exact ⟨d, hd, hparent⟩

/-- **The tiling that no merge can shorten is made of the maximal blocks**: the set of numbers alone
determines it. -/
theorem Tiles.mem_iff_maximal (h : Tiles P F) (hK : ∀ b ∈ F, b.order ≤ K) (hco : Coalesced K F) :
    b ∈ F ↔ Maximal K P b := by
  have hsub : ∀ d ∈ F, ∀ p ∈ d, p ∈ P := fun d hd p hp => (h.mem_iff p).mpr ⟨d, hd, hp⟩
  constructor
  · intro hb
    refine .of_leaves (hK b hb) (hsub b hb) fun hlt => ?_
    by_contra hall
    obtain ⟨c, hc, hle⟩ := h.exists_le hco b.parent_order hlt fun p hp => by
      by_contra hp'
      exact hall ⟨p, hp, hp'⟩
    -- that block meets `b`, so it is `b`, but it holds the parent
    obtain rfl := h.unique b hb c hc _ b.start_mem (hle _ (mem_parent.mpr (.inl b.start_mem)))
    have hbuddy := hle _ (mem_parent.mpr (.inr b.buddy.start_mem))
    exact b.buddy_ne (eq_of_order_eq b.buddy.start_mem hbuddy rfl)
  · intro hb
    obtain ⟨c, hc, hle⟩ := h.exists_le hco rfl hb.order_le hb.subset
    rwa [← hb.eq_of_subset c (hK c hc) (hsub c hc) hle]

/-- Maximal blocks that cover the set tile it without two buddies. -/
theorem Tiles.of_maximal (hF : ∀ b ∈ F, Maximal K P b) (hcov : ∀ p ∈ P, ∃ b ∈ F, p ∈ b) :
    Tiles P F ∧ Coalesced K F := by
  refine ⟨⟨fun p => ⟨hcov p, ?_⟩, ?_⟩, ?_⟩
  · rintro ⟨b, hb, hp⟩
    exact (hF b hb).subset p hp
  · intro b hb c hc p hpb hpc
    exact (hF b hb).eq_of_mem (hF c hc) hpb hpc
  · intro b hb hlt hbuddy
    obtain ⟨p, hp, hpP⟩ := (hF b hb).leaves hlt
    rcases mem_parent.mp hp with hp | hp
    · exact hpP ((hF b hb).subset p hp)
    · exact hpP ((hF _ hbuddy).subset p hp)

/-! ### The greedy tiling -/

/-- What holds at `p` while the numbers below `n` are tiled from the left with the largest blocks that
fit: no block of order at most `K` that starts in front of `p` and ends behind it fits. -/
def GreedyPoint (K n p : ℕ) : Prop := ∀ k ≤ K, ¬ 2 ^ k ∣ p → n < (p / 2 ^ k + 1) * 2 ^ k

/-- Position zero is reached by any greedy tiling, since every power of two divides it. -/
theorem greedyPoint_zero (K n : ℕ) : GreedyPoint K n 0 := fun _ _ h => absurd (Nat.dvd_zero _) h

section Greedy
variable {n o : ℕ} (hp : GreedyPoint K n p) (hdvd : 2 ^ o ∣ p) (hfit : p + 2 ^ o ≤ n)
  (hmax : ∀ k, o < k → k ≤ K → ¬ (2 ^ k ∣ p ∧ p + 2 ^ k ≤ n))
include hp hdvd hmax

/-- Behind the largest block that fits the tiling goes on. -/
theorem GreedyPoint.next : GreedyPoint K n (p + 2 ^ o) := by
  intro k hk hnot
  -- a block of such an order that ends behind the new point is larger than the one placed
  have hlt : o < k := by
    by_contra hle
    have hko : 2 ^ k ∣ 2 ^ o := Nat.pow_dvd_pow 2 (by omega)
    exact hnot (Nat.dvd_add (Nat.dvd_trans hko hdvd) hko)
  have hpos : 0 < 2 ^ k := Nat.two_pow_pos k
  have hpow : 2 ^ k = 2 ^ o * 2 ^ (k - o) := by rw [← pow_add, Nat.add_sub_cancel' hlt.le]
  have hole : 2 ^ o ≤ 2 ^ k := Nat.pow_le_pow_right (by decide) hlt.le
  have hdiv : p / 2 ^ k ≤ (p + 2 ^ o) / 2 ^ k := Nat.div_le_div_right (by omega)
  have hle : (p / 2 ^ k + 1) * 2 ^ k ≤ ((p + 2 ^ o) / 2 ^ k + 1) * 2 ^ k :=
    Nat.mul_le_mul_right _ (by omega)
  by_cases hdk : 2 ^ k ∣ p
  · have hno : n < p + 2 ^ k := by
      have := hmax k hlt hk
      by_contra hge
      exact this ⟨hdk, by omega⟩
    have heq : p / 2 ^ k * 2 ^ k = p := Nat.div_mul_cancel hdk
    rw [Nat.add_mul] at hle
    omega
  · have := hp k hk hdk
    omega

include hfit in
/-- The largest block that fits is maximal. -/
theorem GreedyPoint.maximal (ho : o ≤ K) : Maximal K {q | q < n} ⟨p / 2 ^ o, o⟩ := by
  have hstart : (⟨p / 2 ^ o, o⟩ : DyadicBlock).start = p := Nat.div_mul_cancel hdvd
  refine .of_leaves ho (fun q hq => ?_) fun hlt => ?_
  · rw [mem_iff] at hq
    unfold stop at hq
    rw [hstart] at hq
    exact lt_of_lt_of_le hq.2 hfit
  · -- the last number of the parent is out of range
    have hlt' : o < K := hlt
    have hpos : 0 < 2 ^ (o + 1) := Nat.two_pow_pos _
    have hparent : p / 2 ^ o / 2 = p / 2 ^ (o + 1) := by rw [pow_succ, Nat.div_div_eq_div_mul]
    have hend : n < (p / 2 ^ (o + 1) + 1) * 2 ^ (o + 1) := by
      by_cases hd : 2 ^ (o + 1) ∣ p
      · have heq := Nat.div_mul_cancel hd
        have hno := hmax (o + 1) (by omega) (by omega)
        by_contra hge
        refine hno ⟨hd, ?_⟩
        rw [Nat.add_mul] at hge
        omega
      · exact hp (o + 1) (by omega) hd
    refine ⟨(p / 2 ^ (o + 1) + 1) * 2 ^ (o + 1) - 1, ?_, ?_⟩
    · rw [mem_iff]
      unfold stop start parent
      dsimp only
      rw [hparent]
      rw [Nat.add_mul] at hend ⊢
      omega
    · show ¬ _ < n
      omega

end Greedy

end DyadicBlock

end Microkernel
