import Microkernel.Heap.FirstFitBlocks
import Mathlib.Data.List.Chain

/-! # The first-fit heap keeps its blocks

What each function of `heap_first_fit.c` does to the list of blocks, the invariant of the heap (the
blocks tile the region, no two neighbours are free, the allocated ones are those the callers hold),
and its preservation by every run.

* **`HeapClient.Describes`** — the invariant, over a list of blocks that is not part of the state.
* **`HeapState.Allocates`, `HeapState.Frees`** — all that a call can do to that list: take the first block
  that is large enough, whole or cut in two, and put a block back together with its free neighbours.
* **`HeapState.Replaces`** — that a call writes the headers of the blocks it replaces, and one back link
  more.
-/

namespace Microkernel.Heap

open HeapState (header_modify sameExcept_modify)
open IntervalList (Tiles)

/-! ### The functions on lists of blocks -/

section Functions
variable {s : HeapState} {l₁ l₂ : List Block} {b v : Block} {size : U32}

/-- `merge_with_next` merges a block with the next one. -/
theorem mergeWithNext_spec (h : s.Holds (l₁ ++ b :: v :: l₂)) :
    (mergeWithNext b.addr s).Holds (l₁ ++ b.absorb v :: l₂) ∧
      s.SameExcept (mergeWithNext b.addr s) [b.addr, headAddr 0#32 l₂] := by
  have hb : s.header b.addr = ⟨b.size, b.isFree, v.addr, lastAddr 0#32 l₁⟩ := h.header
  have hv : s.header v.addr = ⟨v.size, v.isFree, headAddr 0#32 l₂, b.addr⟩ := by
    rw [List.append_cons] at h
    rw [h.header, lastAddr_append, lastAddr, lastAddr]
  have hvb : v.addr ≠ b.addr := h.ne_of_mem.2 v (by simp)
  have hcb : ∀ c ∈ l₂.head?, c.addr ≠ b.addr := fun c hc =>
    h.ne_of_mem.2 c (by simp [List.mem_of_mem_head? hc])
  have hnull : headAddr 0#32 l₂ = 0#32 ↔ l₂ = [] := by
    rw [List.append_cons] at h
    exact h.next_eq_zero
  -- the two writes to the header of `b`
  set t := (s.modify b.addr fun h =>
    { h with size := h.size + (headerSize + v.size) }).modify b.addr fun h =>
      { h with next := headAddr 0#32 l₂ } with ht
  have htb : t.header b.addr = ⟨(b.absorb v).size, b.isFree, headAddr 0#32 l₂, lastAddr 0#32 l₁⟩ := by
    rw [ht, header_modify, if_pos rfl, header_modify, if_pos rfl, hb]
    rfl
  have htx : ∀ x, x ≠ b.addr → t.header x = s.header x := by
    intro x hx
    rw [ht, header_modify, if_neg hx, header_modify, if_neg hx]
  have hst : s.SameExcept t [b.addr, headAddr 0#32 l₂] :=
    (sameExcept_modify _ _ _ (by simp)).trans (sameExcept_modify _ _ _ (by simp))
  have heq : mergeWithNext b.addr s =
      if headAddr 0#32 l₂ ≠ 0#32 then
        t.modify (headAddr 0#32 l₂) fun h => { h with prev := b.addr }
      else t := by
    unfold mergeWithNext
    have hv₁ : ∀ f, (s.modify b.addr f).header v.addr = s.header v.addr := fun f => by
      rw [header_modify, if_neg hvb]
    simp only [hb, hv₁, hv]
    rw [← ht, htx v.addr hvb, hv]
  rw [heq]
  cases l₂ with
  | nil =>
    rw [if_neg (by simp [headAddr])]
    exact ⟨h.merge hst htb (by simp), hst⟩
  | cons c l₂ =>
    rw [if_pos (by simpa using hnull)]
    have hcb : c.addr ≠ b.addr := h.ne_of_mem.2 c (by simp)
    have hsame := hst.trans (sameExcept_modify t c.addr (fun h => { h with prev := b.addr })
      (by simp [headAddr]))
    refine ⟨h.merge hsame ?_ ?_, hsame⟩
    · rw [headAddr, header_modify, if_neg hcb.symm, htb, headAddr]
    · intro d hd
      obtain rfl : c = d := by simpa using hd
      rw [headAddr, header_modify, if_pos rfl, htx _ hcb]

/-- The search finds the first free block that is large enough, or `NULL` when there is none. -/
theorem heapFindFit_spec {l : List Block} {p : U32} (n : ℕ) (h : LaidOut s.header p 0#32 l)
    (hnull : ∀ b ∈ l, b.addr ≠ 0#32) (hn : l.length < n) :
    (heapFindFit s size n (headAddr 0#32 l) = some 0#32 ∧
      ∀ b ∈ l, ¬ (b.isFree ∧ size ≤ b.size)) ∨
    ∃ l₁ b l₂, l = l₁ ++ b :: l₂ ∧ heapFindFit s size n (headAddr 0#32 l) = some b.addr ∧
      b.isFree ∧ size ≤ b.size ∧ ∀ c ∈ l₁, ¬ (c.isFree ∧ size ≤ c.size) := by
  induction l generalizing p n with
  | nil =>
    obtain ⟨n, rfl⟩ : ∃ n', n = n' + 1 := ⟨n - 1, by omega⟩
    exact .inl ⟨by simp [heapFindFit, headAddr], by simp⟩
  | cons b l ih =>
    obtain ⟨n, rfl⟩ : ∃ n', n = n' + 1 := ⟨n - 1, by simp at hn; omega⟩
    obtain ⟨hb, hl⟩ := h
    unfold heapFindFit
    rw [headAddr, if_pos (hnull b (by simp)), hb]
    by_cases hfit : b.isFree ∧ size ≤ b.size
    · rw [if_pos hfit]
      exact .inr ⟨[], b, l, rfl, rfl, hfit.1, hfit.2, by simp⟩
    · rw [if_neg hfit]
      rcases ih n hl (fun c hc => hnull c (by simp [hc])) (by simp at hn; omega) with
        ⟨hres, hno⟩ | ⟨l₁, c, l₂, rfl, hres, hfree, hsize, hno⟩
      · refine .inl ⟨hres, fun c hc => ?_⟩
        rcases List.mem_cons.mp hc with rfl | hc
        exacts [hfit, hno c hc]
      · refine .inr ⟨b :: l₁, c, l₂, rfl, hres, hfree, hsize, fun d hd => ?_⟩
        rcases List.mem_cons.mp hd with rfl | hd
        exacts [hfit, hno d hd]

/-- The split puts a free block behind the first `size` bytes. -/
theorem heapSplit_spec {n : Block} (h : s.Holds (l₁ ++ b :: l₂))
    (hn : n = ⟨b.addr + headerSize + size, b.size - size - headerSize, true⟩)
    (hnew : ∀ c ∈ l₁ ++ b :: l₂, c.addr ≠ n.addr) (hn₀ : n.addr ≠ 0#32) :
    (heapSplit b.addr size s).Holds (l₁ ++ ⟨b.addr, size, b.isFree⟩ :: n :: l₂) ∧
      s.SameExcept (heapSplit b.addr size s) [b.addr, n.addr, headAddr 0#32 l₂] := by
  have hb := h.header
  have hbn : b.addr ≠ n.addr := hnew b (by simp)
  have hnext := h.next_eq_zero
  -- the new header
  set t := (((s.modify n.addr fun h => { h with size := n.size }).modify n.addr fun h =>
    { h with isFree := true }).modify n.addr fun h =>
      { h with next := headAddr 0#32 l₂ }).modify n.addr fun h => { h with prev := b.addr } with ht
  have htn : t.header n.addr = ⟨n.size, n.isFree, headAddr 0#32 l₂, b.addr⟩ := by
    simp only [ht, header_modify, if_true, hn]
  have htx : ∀ x, x ≠ n.addr → t.header x = s.header x := by
    intro x hx
    simp only [ht, header_modify, if_neg hx]
  have hst : s.SameExcept t [b.addr, n.addr, headAddr 0#32 l₂] :=
    (((sameExcept_modify _ _ _ (by simp)).trans (sameExcept_modify _ _ _ (by simp))).trans
      (sameExcept_modify _ _ _ (by simp))).trans (sameExcept_modify _ _ _ (by simp))
  -- the back link of the block behind
  set u := (if headAddr 0#32 l₂ ≠ 0#32 then
      t.modify (headAddr 0#32 l₂) fun h => { h with prev := n.addr }
    else t) with hu
  have heq : heapSplit b.addr size s = (u.modify b.addr fun h => { h with size := size }).modify b.addr
      fun h => { h with next := n.addr } := by
    have hna : b.addr + headerSize + size = n.addr := by rw [hn]
    have hns : b.size - size - headerSize = n.size := by rw [hn]
    simp only [heapSplit, hna, header_modify, if_neg hbn, hb, hns]
    rfl
  have hub : u.header b.addr = s.header b.addr ∧ u.header n.addr = t.header n.addr ∧
      (∀ c ∈ l₂.head?, u.header c.addr = { s.header c.addr with prev := n.addr }) ∧
      s.SameExcept u [b.addr, n.addr, headAddr 0#32 l₂] := by
    cases l₂ with
    | nil =>
      rw [hu, if_neg (by simp [headAddr])]
      exact ⟨htx _ hbn, rfl, by simp, hst⟩
    | cons c l₂ =>
      have hcb : c.addr ≠ b.addr := h.ne_of_mem.2 c (by simp)
      have hcn : c.addr ≠ n.addr := hnew c (by simp)
      rw [hu, if_pos (by simpa using hnext), headAddr]
      refine ⟨?_, ?_, ?_, hst.trans (sameExcept_modify _ _ _ (by simp [headAddr]))⟩
      · rw [header_modify, if_neg hcb.symm, htx _ hbn]
      · rw [header_modify, if_neg hcn.symm]
      · intro d hd
        obtain rfl : c = d := by simpa using hd
        rw [header_modify, if_pos rfl, htx _ hcn]
  obtain ⟨hub, hun, huc, hsu⟩ := hub
  have hsame : s.SameExcept (heapSplit b.addr size s) [b.addr, n.addr, headAddr 0#32 l₂] := by
    rw [heq]
    exact (hsu.trans (sameExcept_modify _ _ _ (by simp))).trans (sameExcept_modify _ _ _ (by simp))
  refine ⟨h.cut rfl hnew hn₀ hsame ?_ ?_ ?_, hsame⟩
  · rw [heq, header_modify, if_pos rfl, header_modify, if_pos rfl, hub, hb]
  · rw [heq, header_modify, if_neg hbn.symm, header_modify, if_neg hbn.symm, hun, htn]
  · intro c hc
    have hcb : c.addr ≠ b.addr := h.ne_of_mem.2 c (List.mem_of_mem_head? hc)
    rw [heq, header_modify, if_neg hcb, header_modify, if_neg hcb, huc c hc]

/-- Setting the state of a block. -/
theorem setFree_spec (h : s.Holds (l₁ ++ b :: l₂)) (f : Bool) :
    (s.modify b.addr fun h => { h with isFree := f }).Holds (l₁ ++ ⟨b.addr, b.size, f⟩ :: l₂) ∧
      s.SameExcept (s.modify b.addr fun h => { h with isFree := f }) [b.addr] := by
  have hsame := sameExcept_modify s b.addr (fun h => { h with isFree := f }) (A := [b.addr]) (by simp)
  refine ⟨h.replace rfl hsame ?_, hsame⟩
  rw [header_modify, if_pos rfl, h.header]

/-- The forward loop of `heap_first_fit_free`: with no two free blocks behind `b` it stops at once,
or merges the next block and then stops. -/
theorem heapMergeForward_spec (n : ℕ) (h : s.Holds (l₁ ++ b :: l₂))
    (hl₂ : l₂.IsChain fun c d => ¬ (c.isFree ∧ d.isFree)) :
    ((∀ c ∈ l₂.head?, c.isFree = false) ∧ heapMergeForward b.addr (n + 2) s = some s) ∨
    ∃ c l₃, l₂ = c :: l₃ ∧ c.isFree ∧
      heapMergeForward b.addr (n + 2) s = some (mergeWithNext b.addr s) ∧
      (mergeWithNext b.addr s).Holds (l₁ ++ b.absorb c :: l₃) ∧
      s.SameExcept (mergeWithNext b.addr s) [b.addr, headAddr 0#32 l₃] := by
  -- one test of the loop
  have htest : ∀ {s : HeapState} {b : Block} {l₂ : List Block} (n : ℕ), s.Holds (l₁ ++ b :: l₂) →
      heapMergeForward b.addr (n + 1) s =
        if ∃ c ∈ l₂.head?, c.isFree then heapMergeForward b.addr n (mergeWithNext b.addr s)
        else some s := by
    intro s b l₂ n h
    rw [heapMergeForward, h.header]
    cases l₂ with
    | nil => rw [if_neg (by simp [headAddr]), if_neg (by simp)]
    | cons c l₂ =>
      have hc : (s.header c.addr).isFree = c.isFree := by
        rw [List.append_cons] at h
        rw [h.header]
      have hnull := h.ne_null c (by simp)
      simp [headAddr, hc, hnull]
  rw [htest (n + 1) h]
  cases l₂ with
  | nil => exact .inl ⟨by simp, if_neg (by simp)⟩
  | cons c l₃ =>
    by_cases hc : c.isFree
    · obtain ⟨hm, hsame⟩ := mergeWithNext_spec h
      refine .inr ⟨c, l₃, rfl, hc, ?_, hm, hsame⟩
      rw [if_pos ⟨c, rfl, hc⟩]
      have hm' : (mergeWithNext b.addr s).Holds (l₁ ++ b.absorb c :: l₃) := hm
      have hstop : ¬ ∃ d ∈ l₃.head?, d.isFree := by
        rintro ⟨d, hd, hdf⟩
        cases l₃ with
        | nil => simp at hd
        | cons d' l₃ =>
          obtain rfl : d' = d := by simpa using hd
          exact (List.isChain_cons_cons.mp hl₂).1 ⟨hc, hdf⟩
      exact (htest n hm').trans (if_neg hstop)
    · refine .inl ⟨by simpa using hc, if_neg (by simpa using hc)⟩

end Functions

/-! ### The invariant -/

/-- The pointers to the allocated blocks of a list. -/
def allocated (bs : List Block) : List U32 :=
  (bs.filter fun b => !b.isFree).map fun b => b.addr + headerSize

@[simp] theorem allocated_nil : allocated [] = [] := rfl

/-- The pointers into two lists of blocks. -/
@[simp] theorem allocated_append (l₁ l₂ : List Block) :
    allocated (l₁ ++ l₂) = allocated l₁ ++ allocated l₂ := by simp [allocated]

/-- A block that is not free adds its pointer. -/
theorem allocated_cons (b : Block) (l : List Block) :
    allocated (b :: l) = if b.isFree then allocated l else (b.addr + headerSize) :: allocated l := by
  cases hb : b.isFree <;> simp [allocated, hb]

/-- **The heap invariant**: the list `bs` is the heap's list, its blocks tile the region, sizes are
multiples of 8, no two neighbours are free, and the callers hold exactly the allocated blocks. -/
structure HeapClient.Describes (c : HeapClient) (R : HeapRegion) (bs : List Block) : Prop where
  start : c.heap.heapStart = R.start
  brk : c.heap.heapBrk = R.start + R.size
  holds : c.heap.Holds bs
  tiles : Tiles Block.lo Block.hi R.start.toNat bs (R.start.toNat + R.size.toNat)
  aligned : ∀ b ∈ bs, 8 ∣ b.size.toNat
  coalesced : bs.IsChain fun b d => ¬ (b.isFree ∧ d.isFree)
  live : c.live.Perm (allocated bs)

section Describes
variable {c : HeapClient} {R : HeapRegion} {bs l₁ l₂ : List Block} {b : Block}

/-- Each block lies in the region. -/
theorem HeapClient.Describes.bounds (h : c.Describes R bs) (hb : b ∈ bs) :
    R.start.toNat ≤ b.addr.toNat ∧
      b.addr.toNat + 16 + b.size.toNat ≤ R.start.toNat + R.size.toNat :=
  h.tiles.bounds (fun b _ => b.lo_lt_hi.le) hb

/-- The list is short enough for the fuel of the loops. -/
theorem HeapClient.Describes.length_lt (h : c.Describes R bs) : bs.length < c.heap.fuel := by
  have hlen := h.tiles.length_le fun b _ => b.lo_lt_hi
  unfold HeapState.fuel
  rw [h.start, h.brk, BitVec.add_comm, BitVec.add_sub_cancel]
  omega

/-- An initialised heap is one free block. -/
theorem heapFirstFitInit_describes (R : HeapRegion) (s₀ : HeapState) :
    (HeapClient.mk (heapFirstFitInit s₀ R.start R.size) []).Describes R
      [⟨R.start, R.size - headerSize, true⟩] := by
  have h₁ := R.start_pos
  have h₂ := R.header_le
  have h₃ : (R.size - headerSize).toNat = R.size.toNat - 16 := by
    unfold headerSize at h₂ ⊢
    bv_omega
  have h₄ := R.size_aligned
  have h₅ : headerSize.toNat = 16 := rfl
  constructor
  · rfl
  · rfl
  · refine ⟨rfl, ⟨Function.update_self .., trivial⟩, by simp, ?_⟩
    intro b hb
    obtain rfl := List.mem_singleton.mp hb
    intro h₀
    change R.start = 0#32 at h₀
    rw [h₀] at h₁
    exact absurd h₁ (by decide)
  · refine ⟨rfl, ?_⟩
    show R.start.toNat + 16 + (R.size - headerSize).toNat = _
    omega
  · intro b hb
    obtain rfl := List.mem_singleton.mp hb
    rw [h₃]
    omega
  · exact List.IsChain.singleton _
  · exact List.Perm.nil

/-- **What a call changes**: the blocks `mid` are replaced by `mid'`. Apart from their headers only
the back link of the block behind them is written. -/
structure HeapState.Replaces (s s' : HeapState) (l₁ mid mid' l₂ : List Block) : Prop where
  before : s.Holds (l₁ ++ mid ++ l₂)
  after : s'.Holds (l₁ ++ mid' ++ l₂)
  same : s.SameExcept s' (mid.map Block.addr ++ mid'.map Block.addr ++ [headAddr 0#32 l₂])

/-- A replacement keeps the invariant when it tiles the same interval and fits its neighbours. -/
theorem HeapClient.Describes.replace {mid mid' : List Block} {s' : HeapState} {live' : List U32}
    (h : c.Describes R (l₁ ++ mid ++ l₂)) (hr : c.heap.Replaces s' l₁ mid mid' l₂)
    (hspan : ∀ m e, Tiles Block.lo Block.hi m mid e → Tiles Block.lo Block.hi m mid' e)
    (haligned : ∀ b ∈ mid', 8 ∣ b.size.toNat)
    (hcoalesced : (l₁ ++ mid' ++ l₂).IsChain fun b d => ¬ (b.isFree ∧ d.isFree))
    (hlive : live'.Perm (allocated (l₁ ++ mid' ++ l₂))) :
    (HeapClient.mk s' live').Describes R (l₁ ++ mid' ++ l₂) where
  start := hr.same.heapStart.trans h.start
  brk := hr.same.heapBrk.trans h.brk
  holds := hr.after
  tiles := by
    obtain ⟨e', h₁, h₂⟩ := IntervalList.tiles_append.mp h.tiles
    obtain ⟨m, h₁, hm⟩ := IntervalList.tiles_append.mp h₁
    exact IntervalList.tiles_append.mpr
      ⟨_, IntervalList.tiles_append.mpr ⟨_, h₁, hspan _ _ hm⟩, h₂⟩
  aligned := by
    intro b hb
    rw [List.mem_append, List.mem_append] at hb
    rcases hb with (hb | hb) | hb
    exacts [h.aligned b (by simp [hb]), haligned b hb, h.aligned b (by simp [hb])]
  coalesced := hcoalesced
  live := hlive

/-- `ALIGN8` gives a multiple of 8. -/
theorem dvd_align8 (x : U32) : 8 ∣ (align8 x).toNat := by
  refine Nat.dvd_of_mod_eq_zero ?_
  unfold align8
  rw [BitVec.toNat_and, show 8 = 2 ^ 3 from rfl, Nat.and_mod_two_pow]
  have h7 : (~~~7#32).toNat % 2 ^ 3 = 0 := by decide
  rw [h7, Nat.and_zero]

/-- The addresses and sizes of a cut do not wrap around. -/
theorem cut_toNat {a z x : U32} (hx : x ≤ z) (hcut : z - x > headerSize + 8#32)
    (hz : a.toNat + 16 + z.toNat < 2 ^ 32) :
    (a + headerSize + x).toNat = a.toNat + 16 + x.toNat ∧
      (z - x - headerSize).toNat = z.toNat - x.toNat - 16 ∧ x.toNat + 24 < z.toNat := by
  unfold headerSize at *
  refine ⟨?_, ?_, ?_⟩ <;> bv_omega

/-- What `heap_first_fit_alloc(size)` does when it finds a block: the first free block `b` that is
large enough is allocated, whole or cut in two. -/
structure HeapState.Allocates (s s' : HeapState) (size p : U32) (l₁ : List Block) (b : Block)
    (mid' l₂ : List Block) : Prop where
  isFree : b.isFree
  le_size : align8 size ≤ b.size
  /-- No earlier block would have done. -/
  first : ∀ d ∈ l₁, ¬ (d.isFree ∧ align8 size ≤ d.size)
  result : p = b.addr + headerSize
  replaces : s.Replaces s' l₁ [b] mid' l₂
  /-- The block is cut when a header and more than 8 bytes are left, and keeps its size else. -/
  shape : mid' =
    if b.size - align8 size > headerSize + 8#32 then
      [⟨b.addr, align8 size, false⟩,
        ⟨b.addr + headerSize + align8 size, b.size - align8 size - headerSize, true⟩]
    else [⟨b.addr, b.size, false⟩]

/-- `heap_first_fit_alloc` returns; it fails and changes nothing, or allocates from the first block
that is large enough. -/
theorem heapFirstFitAlloc_spec (h : c.Describes R bs) (size : U32) :
    (heapFirstFitAlloc size c.heap = some (c.heap, 0#32) ∧
      ∀ b ∈ bs, ¬ (b.isFree ∧ align8 size ≤ b.size)) ∨
    ∃ s' p l₁ b mid' l₂, bs = l₁ ++ [b] ++ l₂ ∧ heapFirstFitAlloc size c.heap = some (s', p) ∧
      c.heap.Allocates s' size p l₁ b mid' l₂ := by
  have hfind := @heapFindFit_spec _ (align8 size) _ _ c.heap.fuel h.holds.laidOut h.holds.ne_null
    h.length_lt
  rw [← h.holds.head] at hfind
  rcases hfind with ⟨hres, hno⟩ | ⟨l₁, b, l₂, rfl, hres, hfree, hsize, hfirst⟩
  · left
    refine ⟨?_, hno⟩
    unfold heapFirstFitAlloc
    simp [hres]
  right
  have hb := h.holds.header
  have hbnull := h.holds.ne_null b (by simp)
  obtain ⟨hlo, hhi⟩ := h.bounds (b := b) (by simp)
  have hstop := R.stop_lt
  have h16 : headerSize = 16#32 := rfl
  by_cases hcut : b.size - align8 size > headerSize + 8#32
  · -- the remainder is large enough for a block of its own
    set n : Block := ⟨b.addr + headerSize + align8 size, b.size - align8 size - headerSize, true⟩
      with hn
    obtain ⟨haddr, -, hlt⟩ := cut_toNat (a := b.addr) hsize hcut (by omega)
    have hnew : ∀ d ∈ l₁ ++ b :: l₂, d.addr ≠ n.addr := by
      -- the new header lies inside `b`
      intro d hd heq
      have hsep := h.tiles.separated fun b _ => b.lo_lt_hi
      have hlo' : d.lo = b.addr.toNat + 16 + (align8 size).toNat := by
        unfold Block.lo
        rw [heq, ← haddr]
      have hdb : d = b := by
        refine hsep.eq_of_mem_of_mem hd (by simp) le_rfl d.lo_lt_hi (q := d.lo) ?_ ?_ rfl
        · unfold Block.lo at hlo' ⊢
          omega
        · unfold Block.hi
          omega
      subst hdb
      unfold Block.lo at hlo'
      omega
    have hn₀ : n.addr ≠ 0#32 := by
      intro h₀
      change b.addr + headerSize + align8 size = 0#32 at h₀
      rw [h₀] at haddr
      change 0 = _ at haddr
      omega
    obtain ⟨hsplit, hsame⟩ := heapSplit_spec h.holds hn hnew hn₀
    obtain ⟨hset, hsame'⟩ := setFree_spec hsplit false
    refine ⟨_, _, l₁, b, [⟨b.addr, align8 size, false⟩, n], l₂, by simp, ?_, hfree, hsize, hfirst,
      rfl, ⟨by simpa using h.holds, by simpa using hset, ?_⟩, (if_pos hcut).symm⟩
    · unfold heapFirstFitAlloc
      simp only [hres, if_pos hbnull, hb, if_pos hcut]
    · exact (hsame.mono (by simp)).trans (hsame'.mono (by simp))
  · obtain ⟨hset, hsame'⟩ := setFree_spec h.holds false
    refine ⟨_, _, l₁, b, [⟨b.addr, b.size, false⟩], l₂, by simp, ?_, hfree, hsize, hfirst,
      rfl, ⟨by simpa using h.holds, by simpa using hset, ?_⟩, (if_neg hcut).symm⟩
    · unfold heapFirstFitAlloc
      simp only [hres, if_pos hbnull, hb, if_neg hcut]
    · exact hsame'.mono (by simp)

/-- An allocation keeps the invariant, with the new pointer among those the callers hold. -/
theorem HeapState.Allocates.describes {s' : HeapState} {size p : U32} {mid' : List Block}
    (h : c.Describes R (l₁ ++ [b] ++ l₂)) (ha : c.heap.Allocates s' size p l₁ b mid' l₂) :
    p ≠ 0#32 ∧ (HeapClient.mk s' (p :: c.live)).Describes R (l₁ ++ mid' ++ l₂) := by
  obtain ⟨hlo, hhi⟩ := h.bounds (b := b) (by simp)
  have hstop := R.stop_lt
  have hp : p ≠ 0#32 := by
    rw [ha.result]
    unfold headerSize
    bv_omega
  -- what comes after an allocated block is coalesced on its own
  obtain ⟨hchain, hchain₂, hlast⟩ := List.isChain_append.mp h.coalesced
  obtain ⟨hchain₁, -, -⟩ := List.isChain_append.mp hchain
  have hnext : ∀ d ∈ l₂.head?, d.isFree = false := by
    intro d hd
    have := hlast b (by simp) d hd
    rw [ha.isFree] at this
    simpa using this
  have hlive := h.live
  rw [allocated_append, allocated_append, allocated_cons, if_pos ha.isFree, allocated_nil,
    List.append_nil] at hlive
  have hlive' : (p :: c.live).Perm (allocated l₁ ++ [p] ++ allocated l₂) := by
    refine (hlive.cons p).trans ?_
    rw [List.append_assoc]
    exact List.perm_middle.symm
  have hshape := ha.shape
  by_cases hcut : b.size - align8 size > headerSize + 8#32
  · rw [if_pos hcut] at hshape
    subst hshape
    obtain ⟨haddr, hsize, hlt⟩ := cut_toNat (a := b.addr) ha.le_size hcut (by omega)
    refine ⟨hp, h.replace ha.replaces ?_ ?_ ?_ ?_⟩
    · rintro m e ⟨rfl, rfl⟩
      refine ⟨rfl, ?_, ?_⟩
      · exact haddr
      · show (b.addr + headerSize + align8 size).toNat + 16 +
          (b.size - align8 size - headerSize).toNat = b.addr.toNat + 16 + b.size.toNat
        omega
    · have h₁ := h.aligned b (by simp)
      have h₂ := dvd_align8 size
      intro d hd
      rcases List.mem_cons.mp hd with rfl | hd
      · exact h₂
      · obtain rfl := List.mem_singleton.mp hd
        show 8 ∣ (b.size - align8 size - headerSize).toNat
        omega
    · refine List.isChain_append.mpr ⟨List.isChain_append.mpr ⟨hchain₁, ?_, ?_⟩, hchain₂, ?_⟩
      · simp
      · simp
      · simpa using hnext
    · rw [allocated_append, allocated_append]
      simpa [allocated_cons, ← ha.result] using hlive'
  · rw [if_neg hcut] at hshape
    subst hshape
    refine ⟨hp, h.replace ha.replaces ?_ ?_ ?_ ?_⟩
    · rintro m e ⟨rfl, rfl⟩
      exact ⟨rfl, rfl⟩
    · intro d hd
      obtain rfl := List.mem_singleton.mp hd
      exact h.aligned b (by simp)
    · refine List.isChain_append.mpr ⟨List.isChain_append.mpr ⟨hchain₁, ?_, ?_⟩, hchain₂, ?_⟩
      · simp
      · simp
      · simp
    · rw [allocated_append, allocated_append]
      simpa [allocated_cons, ← ha.result] using hlive'

/-- What `heap_first_fit_free(p)` does: the block `b` and the free blocks next to it, at most one on
each side, become one free block `m`. -/
structure HeapState.Frees (s s' : HeapState) (p : U32) (l₁ pre : List Block) (b : Block)
    (post l₂ : List Block) (m : Block) : Prop where
  used : b.isFree = false
  pointer : p = b.addr + headerSize
  pre_free : ∀ d ∈ pre, d.isFree
  post_free : ∀ d ∈ post, d.isFree
  pre_length : pre.length ≤ 1
  post_length : post.length ≤ 1
  /-- The blocks that are left around are allocated. -/
  before_used : ∀ d ∈ l₁.getLast?, d.isFree = false
  after_used : ∀ d ∈ l₂.head?, d.isFree = false
  merged_free : m.isFree
  merged_aligned : 8 ∣ m.size.toNat
  /-- The merged block begins and ends where the blocks it is made of do. -/
  covers : ∀ x e, Tiles Block.lo Block.hi x (pre ++ b :: post) e → m.lo = x ∧ m.hi = e
  replaces : s.Replaces s' l₁ (pre ++ b :: post) [m] l₂

/-- Merging adjacent blocks does not wrap around. -/
theorem absorb_hi {b v : Block} (hadj : b.hi = v.lo) (hv : v.hi < 2 ^ 32) :
    (b.absorb v).hi = v.hi ∧ (b.absorb v).size.toNat = b.size.toNat + 16 + v.size.toNat := by
  have hsize : (b.size + (headerSize + v.size)).toNat = b.size.toNat + 16 + v.size.toNat := by
    unfold Block.hi Block.lo at *
    unfold headerSize
    bv_omega
  refine ⟨?_, hsize⟩
  unfold Block.hi Block.lo at *
  show b.addr.toNat + 16 + (b.size + (headerSize + v.size)).toNat = _
  omega

/-- The first half of `heap_first_fit_free`: the block is marked free and takes in the block behind
it when that one is free. -/
theorem heapMergeForward_describes (h : c.Describes R (l₁ ++ b :: l₂)) :
    ∃ s' m post l₃, l₂ = post ++ l₃ ∧
      heapMergeForward b.addr c.heap.fuel (c.heap.modify b.addr fun h => { h with isFree := true }) =
        some s' ∧
      s'.Holds (l₁ ++ m :: l₃) ∧ m.addr = b.addr ∧ m.isFree ∧ 8 ∣ m.size.toNat ∧
      post.length ≤ 1 ∧ (∀ d ∈ post, d.isFree) ∧ (∀ d ∈ l₃.head?, d.isFree = false) ∧
      (∀ x e, Tiles Block.lo Block.hi x (b :: post) e → m.lo = x ∧ m.hi = e) ∧
      c.heap.SameExcept s' (b.addr :: post.map Block.addr ++ [headAddr 0#32 l₃]) := by
  obtain ⟨hset, hsame⟩ := setFree_spec h.holds true
  have hchain₂ : l₂.IsChain fun b d => ¬ (b.isFree ∧ d.isFree) :=
    (List.isChain_cons.mp (List.isChain_append.mp h.coalesced).2.1).2
  have haligned := h.aligned b (by simp)
  obtain ⟨n, hn⟩ : ∃ n, c.heap.fuel = n + 2 := by
    have hlen := h.length_lt
    simp only [List.length_append, List.length_cons] at hlen
    exact ⟨c.heap.fuel - 2, by omega⟩
  rw [hn]
  rcases heapMergeForward_spec n hset hchain₂ with
    ⟨hused, hres⟩ | ⟨v, l₃, rfl, hv, hres, hmerge, hsame'⟩
  · refine ⟨_, _, [], l₂, rfl, hres, hset, rfl, rfl, haligned, by simp, by simp, hused, ?_,
      hsame.mono (by simp)⟩
    rintro x e ⟨rfl, rfl⟩
    exact ⟨rfl, rfl⟩
  · -- the block behind is free
    have htiles := (IntervalList.tiles_middle.mp h.tiles).2
    have hvb := (h.bounds (b := v) (by simp)).2
    have hstop := R.stop_lt
    have hadj : b.hi = v.lo := htiles.1.symm
    obtain ⟨hhi, hsize⟩ := absorb_hi hadj (show v.hi < 2 ^ 32 by unfold Block.hi; omega)
    refine ⟨_, _, [v], l₃, rfl, hres, hmerge, rfl, rfl, ?_, by simp, by simpa using hv, ?_, ?_,
      (hsame.mono (by simp)).trans (hsame'.mono (by simp))⟩
    · have := h.aligned v (by simp)
      show 8 ∣ (b.absorb v).size.toNat
      omega
    · intro d hd
      have := (List.isChain_cons.mp hchain₂).1 d hd
      rw [hv] at this
      simpa using this
    · rintro x e ⟨rfl, -, rfl⟩
      exact ⟨rfl, hhi⟩

/-- `heap_first_fit_free` of a pointer that a caller holds returns and frees its block. -/
theorem heapFirstFitFree_spec {p : U32} (h : c.Describes R bs) (hp : p ∈ c.live) :
    ∃ s' l₁ pre b post l₂ m, bs = l₁ ++ (pre ++ b :: post) ++ l₂ ∧
      heapFirstFitFree p c.heap = some s' ∧ c.heap.Frees s' p l₁ pre b post l₂ m := by
  obtain ⟨b, hmem, rfl⟩ := List.mem_map.mp (h.live.mem_iff.mp hp)
  obtain ⟨hb, hused⟩ : b ∈ bs ∧ b.isFree = false := by simpa using hmem
  obtain ⟨l₁, l₂, rfl⟩ := List.append_of_mem hb
  obtain ⟨hlo, hhi⟩ := h.bounds hb
  have hstop := R.stop_lt
  -- the pointer passes the checks
  have hp₀ : b.addr + headerSize ≠ 0#32 := by
    unfold headerSize
    bv_omega
  have hrange : ¬ (b.addr < c.heap.heapStart ∨ b.addr ≥ c.heap.heapBrk) := by
    rw [h.start, h.brk]
    bv_omega
  obtain ⟨t, m, post, l₃, rfl, hfwd, hholds, haddr, hfree, hdvd, hlen, hpost, hafter, hcovers,
    hsame⟩ := heapMergeForward_describes h
  have hchain := h.coalesced
  have hres : heapFirstFitFree (b.addr + headerSize) c.heap = some
      (if (t.header b.addr).prev ≠ 0#32 ∧ (t.header (t.header b.addr).prev).isFree then
        mergeWithNext (t.header b.addr).prev t else t) := by
    unfold heapFirstFitFree
    simp only [if_neg hp₀, BitVec.add_sub_cancel, if_neg hrange]
    rw [show (c.heap.modify b.addr fun h => { h with isFree := true }).fuel = c.heap.fuel from rfl,
      hfwd, Option.map_some]
  have hprev : (t.header b.addr).prev = lastAddr 0#32 l₁ := by rw [← haddr, hholds.header]
  rw [hprev] at hres
  have hlist : ∀ l₁ : List Block, l₁ ++ b :: (post ++ l₃) = l₁ ++ (b :: post) ++ l₃ := by simp
  rcases List.eq_nil_or_concat' l₁ with rfl | ⟨l₁, d, rfl⟩
  · -- no block in front
    rw [if_neg (by simp [lastAddr])] at hres
    exact ⟨t, [], [], b, post, l₃, m, hlist _, hres, hused, rfl, by simp, hpost, by simp, hlen,
      by simp, hafter, hfree, hdvd, hcovers, by simpa using h.holds, by simpa using hholds,
      hsame.mono (by simp)⟩
  have hd : (t.header d.addr).isFree = d.isFree := by
    rw [List.append_assoc] at hholds
    rw [hholds.header]
  have hlast : lastAddr 0#32 (l₁ ++ [d]) = d.addr := by rw [lastAddr_append, lastAddr, lastAddr]
  have hdnull := h.holds.ne_null d (by simp)
  rw [hlast, hd] at hres
  by_cases hdf : d.isFree
  · -- the block in front takes in the result
    rw [if_pos ⟨hdnull, hdf⟩] at hres
    rw [List.append_assoc] at hholds
    obtain ⟨hmerge, hsame'⟩ := mergeWithNext_spec hholds
    have htiles := h.tiles
    rw [List.append_assoc] at htiles
    obtain ⟨-, htiles⟩ := IntervalList.tiles_middle.mp htiles
    obtain ⟨e, hmid, hrest⟩ := (IntervalList.tiles_append : _ ↔ ∃ m, IntervalList.Tiles _ _ _
      (b :: post) m ∧ _).mp htiles
    obtain ⟨hmlo, hmhi⟩ := hcovers _ _ hmid
    have he : e ≤ R.start.toNat + R.size.toNat := hrest.le fun b _ => b.lo_lt_hi.le
    obtain ⟨habs, hsize⟩ := absorb_hi hmlo.symm (by omega)
    have hbefore : ∀ x ∈ l₁.getLast?, x.isFree = false := by
      intro x hx
      rw [List.append_assoc] at hchain
      have := (List.isChain_append.mp hchain).2.2 x hx d (by simp)
      rw [hdf] at this
      simpa using this
    refine ⟨mergeWithNext d.addr t, l₁, [d], b, post, l₃, d.absorb m, by simp, hres, hused, rfl,
      by simpa using hdf, hpost, by simp, hlen, hbefore, hafter, hdf, ?_, ?_,
      by simpa using h.holds, by simpa using hmerge, ?_⟩
    · have := h.aligned d (by simp)
      omega
    · rintro x e' ⟨rfl, htl⟩
      exact ⟨rfl, habs.trans (hcovers _ _ htl).2⟩
    · refine (hsame.mono fun x hx => ?_).trans (hsame'.mono (by simp [Block.absorb]))
      simp only [List.mem_append, List.mem_cons, List.map_append, List.map_cons] at hx ⊢
      tauto
  · rw [if_neg fun hc => hdf hc.2] at hres
    exact ⟨t, l₁ ++ [d], [], b, post, l₃, m, hlist _, hres, hused, rfl, by simp, hpost, by simp,
      hlen, by simpa using hdf, hafter, hfree, hdvd, hcovers, by simpa using h.holds,
      by simpa using hholds, hsame.mono (by simp)⟩

/-- A free keeps the invariant and gives the pointer back. -/
theorem HeapState.Frees.describes {s' : HeapState} {p : U32} {pre post : List Block} {m : Block}
    (h : c.Describes R (l₁ ++ (pre ++ b :: post) ++ l₂))
    (hf : c.heap.Frees s' p l₁ pre b post l₂ m) :
    (HeapClient.mk s' (c.live.erase p)).Describes R (l₁ ++ [m] ++ l₂) := by
  obtain ⟨hchain, hchain₂, -⟩ := List.isChain_append.mp h.coalesced
  obtain ⟨hchain₁, -, -⟩ := List.isChain_append.mp hchain
  have hnone : ∀ l : List Block, (∀ d ∈ l, d.isFree) → allocated l = [] := by
    intro l hl
    simpa [allocated, List.filter_eq_nil_iff] using hl
  refine h.replace hf.replaces ?_ ?_ ?_ ?_
  · intro x e htl
    obtain ⟨hlo, hhi⟩ := hf.covers x e htl
    exact ⟨hlo, hhi⟩
  · intro d hd
    obtain rfl := List.mem_singleton.mp hd
    exact hf.merged_aligned
  · refine List.isChain_append.mpr ⟨List.isChain_append.mpr ⟨hchain₁, by simp, ?_⟩, hchain₂, ?_⟩
    · intro x hx y _
      simp [hf.before_used x hx]
    · intro x _ y hy
      simp [hf.after_used y hy]
  · -- the pointer of `b` is the only one that goes
    have hlive := h.live
    rw [allocated_append, allocated_append, allocated_append, hnone pre hf.pre_free, allocated_cons,
      if_neg (by simp [hf.used]), hnone post hf.post_free, ← hf.pointer] at hlive
    rw [allocated_append, allocated_append, allocated_cons, if_pos hf.merged_free, allocated_nil,
      List.append_nil]
    have hperm : c.live.Perm (p :: (allocated l₁ ++ allocated l₂)) := by
      refine hlive.trans ?_
      simp [List.perm_middle]
    simpa using hperm.erase p

end Describes

end Microkernel.Heap
