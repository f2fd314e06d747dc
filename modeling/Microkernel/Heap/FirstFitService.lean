import Microkernel.Heap.FirstFitRun
import Mathlib.Data.Set.BooleanAlgebra
import Mathlib.Order.CompletePartialOrder
import Mathlib.Order.Interval.Set.Basic

/-! # What a caller of the first-fit heap gets

Two promises of `heap_first_fit_alloc`. That a result owns the bytes that were asked for, which no
other allocation and no header shares: kept as long as `ALIGN8` does not wrap around. That the heap
grows when no free block is large enough: not kept, because the function never calls `heap_grow`.

* **`HeapClient.Owns`** — the invariant behind the first promise: each live allocation is one of the
  allocated blocks, with at least the size that was asked for.
* **`firstFit_serves`** — the first promise over all runs, with the largest size that still keeps it.
* **`firstFit_growsOnDemand_iff`** — exactly when the second is kept: a block that is large enough is
  there, or there is no room to grow.
-/

namespace Microkernel.Heap

open IntervalList (Tiles)

/-! ### The bytes of an allocation -/

/-- The bytes `[p, p + size)` of an allocation `(p, size)`. -/
def dataBytes (a : U32 × U32) : Set ℕ := Set.Ico a.1.toNat (a.1.toNat + a.2.toNat)

/-- The bytes of the header at `b`. -/
def headerBytes (b : U32) : Set ℕ := Set.Ico b.toNat (b.toNat + headerSize.toNat)

/-- The live allocations after a call, with the sizes that were asked for. -/
def heapOwned (owned : List (U32 × U32)) : HeapCall × U32 → List (U32 × U32)
  | (.alloc size, p) => if p = 0#32 then owned else (p, size) :: owned
  | (.free ptr, _) => owned.filter fun a => a.1 ≠ ptr

/-- **The promise**: every live allocation is 8-byte aligned, lies inside the heap, and shares no byte
with another live allocation or with a header. -/
structure HeapState.Serves (s : HeapState) (owned : List (U32 × U32)) : Prop where
  aligned : ∀ a ∈ owned, 8 ∣ a.1.toNat
  inside : ∀ a ∈ owned,
    s.heapStart.toNat ≤ a.1.toNat ∧ a.1.toNat + a.2.toNat ≤ s.heapBrk.toNat
  disjoint : owned.Pairwise fun a b => Disjoint (dataBytes a) (dataBytes b)
  offHeaders : ∀ a ∈ owned, ∀ b, s.InList b → Disjoint (dataBytes a) (headerBytes b)

/-! ### Allocations in blocks -/

/-- The allocation is an allocated block, which has at least the size that was asked for. -/
structure Block.Holds (b : Block) (a : U32 × U32) : Prop where
  used : b.isFree = false
  pointer : a.1 = b.addr + headerSize
  le_size : a.2 ≤ b.size

/-- **The invariant**: the blocks of the heap are `bs`, and each allocation is one of them. -/
structure HeapClient.Owns (c : HeapClient) (R : HeapRegion) (bs : List Block)
    (owned : List (U32 × U32)) : Prop where
  describes : c.Describes R bs
  held : ∀ a ∈ owned, ∃ b ∈ bs, b.Holds a
  /-- The pointers are those the callers hold. -/
  live : (owned.map Prod.fst).Perm c.live

/-- `ALIGN8` rounds up, unless it wraps around. -/
theorem le_align8 {x : U32} (hx : x ≤ 0xFFFFFFF8#32) : x ≤ align8 x := by
  have hclear := U32.toNat_and_not_low (x + 7#32) 3 (by decide)
  have hadd : (x + 7#32).toNat = x.toNat + 7 := by bv_omega
  have hx' : (align8 x).toNat = (x.toNat + 7) / 8 * 8 := by
    rw [hadd] at hclear
    exact hclear
  rw [BitVec.le_def, hx']
  omega

/-- The bytes of an allocated block lie behind its header. -/
theorem Block.Holds.bytes {b : Block} {a : U32 × U32} (h : b.Holds a) (hb : b.hi < 2 ^ 32) :
    a.1.toNat = b.lo + 16 ∧ a.1.toNat + a.2.toNat ≤ b.hi := by
  have hle := BitVec.le_def.mp h.le_size
  have hptr : a.1.toNat = b.addr.toNat + 16 := by
    rw [h.pointer]
    unfold Block.hi at hb
    unfold headerSize
    bv_omega
  unfold Block.lo Block.hi
  omega

section Owns
variable {c : HeapClient} {R : HeapRegion} {bs : List Block} {owned : List (U32 × U32)}

/-- The bytes of two blocks of the heap, unless they are the same block. -/
theorem HeapClient.Describes.separate (h : c.Describes R bs) {b d : Block} (hb : b ∈ bs)
    (hd : d ∈ bs) (hne : b ≠ d) : b.hi ≤ d.lo ∨ d.hi ≤ b.lo := by
  have hsep := h.tiles.separated fun b _ => b.lo_lt_hi
  by_contra hover
  rw [not_or, not_le, not_le] at hover
  rcases le_total b.lo d.lo with hle | hle
  · exact hne (hsep.eq_of_mem_of_mem hb hd hle hover.1 le_rfl d.lo_lt_hi rfl)
  · exact hne (hsep.eq_of_mem_of_mem hb hd le_rfl b.lo_lt_hi hle hover.2 rfl)

/-- Each block ends below `2 ^ 32`. -/
theorem HeapClient.Describes.hi_lt (h : c.Describes R bs) {b : Block} (hb : b ∈ bs) :
    b.hi < 2 ^ 32 := by
  have hstop := R.stop_lt
  have hhi : b.hi ≤ _ := (h.bounds hb).2
  omega

/-- Pointers are multiples of 8: the region starts at one, and so does every block. -/
theorem HeapClient.Describes.addr_aligned (h : c.Describes R bs) {b : Block} (hb : b ∈ bs) :
    8 ∣ b.lo := by
  have hspan : ∀ (l : List Block) (a e : ℕ), (∀ d ∈ l, 8 ∣ d.size.toNat) →
      Tiles Block.lo Block.hi a l e → 8 ∣ a → ∀ d ∈ l, 8 ∣ d.lo := by
    intro l
    induction l with
    | nil => simp
    | cons d l ih =>
      intro a e hsize htiles ha x hx
      obtain ⟨hlo, htl⟩ := htiles
      have hd : 8 ∣ d.lo := hlo ▸ ha
      rcases List.mem_cons.mp hx with rfl | hx
      · exact hd
      · have hds := hsize d List.mem_cons_self
        refine ih d.hi e (fun y hy => hsize y (List.mem_cons_of_mem d hy)) htl ?_ x hx
        unfold Block.lo at hd
        unfold Block.hi
        omega
  exact hspan bs _ _ h.aligned h.tiles R.start_aligned b hb

/-- No pointer is held twice. -/
theorem HeapClient.Owns.pointers_nodup (h : c.Owns R bs owned) : (owned.map Prod.fst).Nodup := by
  have hsep := h.describes.tiles.separated fun b _ => b.lo_lt_hi
  refine (h.live.trans h.describes.live).nodup_iff.mpr ?_
  refine (List.Nodup.filter _ hsep.nodup).map_on ?_
  intro x hx y hy hxy
  refine hsep.eq_of_lo_eq (List.mem_of_mem_filter hx) (List.mem_of_mem_filter hy) ?_
  unfold Block.lo
  rw [BitVec.add_left_inj] at hxy
  rw [hxy]

/-- **The invariant keeps the promise.** -/
theorem HeapClient.Owns.serves (h : c.Owns R bs owned) : c.heap.Serves owned := by
  have hd := h.describes
  have hnd := h.pointers_nodup
  have h16 : headerSize.toNat = 16 := rfl
  constructor
  · intro a ha
    obtain ⟨b, hb, hba⟩ := h.held a ha
    have hlo := (hba.bytes (hd.hi_lt hb)).1
    have halign := hd.addr_aligned hb
    omega
  · intro a ha
    obtain ⟨b, hb, hba⟩ := h.held a ha
    obtain ⟨hlo, hhi⟩ := hba.bytes (hd.hi_lt hb)
    obtain ⟨hstart, hstop⟩ := hd.bounds hb
    rw [hd.brk_toNat, hd.start]
    unfold Block.lo Block.hi at *
    omega
  -- two pointers lie in two blocks, and the blocks do not overlap
  · refine (List.pairwise_map.mp hnd).imp_of_mem fun {a a'} ha ha' hne => ?_
    obtain ⟨b, hb, hba⟩ := h.held a ha
    obtain ⟨b', hb', hba'⟩ := h.held a' ha'
    have hbb' : b ≠ b' := by
      rintro rfl
      exact hne (hba.pointer.trans hba'.pointer.symm)
    obtain ⟨hlo, hhi⟩ := hba.bytes (hd.hi_lt hb)
    obtain ⟨hlo', hhi'⟩ := hba'.bytes (hd.hi_lt hb')
    have hsep := hd.separate hb hb' hbb'
    refine Set.disjoint_left.mpr fun x hx hx' => ?_
    obtain ⟨hx₁, hx₂⟩ := hx
    obtain ⟨hx₁', hx₂'⟩ := hx'
    omega
  · intro a ha x hx
    obtain ⟨b, hb, hba⟩ := h.held a ha
    obtain ⟨l₁, d, l₂, rfl, rfl⟩ := hd.holds.mem_of_inList hx
    obtain ⟨hlo, hhi⟩ := hba.bytes (hd.hi_lt hb)
    refine Set.disjoint_left.mpr fun x hx hx' => ?_
    obtain ⟨hx₁, hx₂⟩ := hx
    obtain ⟨hx₁', hx₂'⟩ := hx'
    have hlod : d.lo = d.addr.toNat := rfl
    by_cases hbd : b = d
    · subst hbd
      omega
    · have hsep := hd.separate hb (show d ∈ l₁ ++ d :: l₂ by simp) hbd
      have hhid : d.hi = d.addr.toNat + 16 + d.size.toNat := rfl
      omega

/-- An allocation of a size that can be rounded up keeps the invariant. -/
theorem HeapState.Allocates.owns {s' : HeapState} {size p : U32} {l₁ l₂ mid' : List Block} {b : Block}
    (h : c.Owns R (l₁ ++ [b] ++ l₂) owned) (ha : c.heap.Allocates s' size p l₁ b mid' l₂)
    (hsize : size ≤ 0xFFFFFFF8#32) :
    p ≠ 0#32 ∧
      (HeapClient.mk s' (p :: c.live)).Owns R (l₁ ++ mid' ++ l₂) ((p, size) :: owned) := by
  obtain ⟨hp, hdesc⟩ := ha.describes h.describes
  refine ⟨hp, hdesc, ?_, h.live.cons p⟩
  intro a hmem
  rcases List.mem_cons.mp hmem with rfl | hmem
  · -- the new allocation is the first of the blocks that take the place of `b`
    have hround := le_align8 hsize
    have hle := ha.le_size
    rw [ha.shape]
    by_cases hcut : b.size - align8 size > headerSize + 8#32
    · rw [if_pos hcut]
      exact ⟨⟨b.addr, align8 size, false⟩, by simp, rfl, ha.result, hround⟩
    · rw [if_neg hcut]
      exact ⟨⟨b.addr, b.size, false⟩, by simp, rfl, ha.result, BitVec.le_trans hround hle⟩
  · obtain ⟨d, hd, hda⟩ := h.held a hmem
    refine ⟨d, ?_, hda⟩
    have hne : d ≠ b := by
      rintro rfl
      exact absurd (hda.used.symm.trans ha.isFree) (by simp)
    simp only [List.mem_append, List.mem_singleton, hne, or_false] at hd ⊢
    tauto

/-- A free keeps the invariant. -/
theorem HeapState.Frees.owns {s' : HeapState} {p : U32} {l₁ l₂ pre post : List Block} {b m : Block}
    (h : c.Owns R (l₁ ++ (pre ++ b :: post) ++ l₂) owned)
    (hf : c.heap.Frees s' p l₁ pre b post l₂ m) :
    (HeapClient.mk s' (c.live.erase p)).Owns R (l₁ ++ [m] ++ l₂) (owned.filter (·.1 ≠ p)) := by
  refine ⟨hf.describes h.describes, ?_, ?_⟩
  · intro a ha
    obtain ⟨hmem, hap⟩ := List.mem_filter.mp ha
    obtain ⟨d, hd, hda⟩ := h.held a hmem
    refine ⟨d, ?_, hda⟩
    -- the block of another allocation is not among those that become one
    have hdb : d ≠ b := by
      rintro rfl
      exact absurd (hda.pointer.trans hf.pointer.symm) (by simpa using hap)
    have hfree : ∀ l : List Block, (∀ x ∈ l, x.isFree) → d ∉ l := by
      intro l hl hdl
      exact absurd (hda.used.symm.trans (hl d hdl)) (by simp)
    have hpre := hfree pre hf.pre_free
    have hpost := hfree post hf.post_free
    simp only [List.mem_append, List.mem_cons, hdb, hpre, hpost, or_false] at hd ⊢
    tauto
  · have hnd := h.pointers_nodup
    have hfilter : (owned.filter (·.1 ≠ p)).map Prod.fst = (owned.map Prod.fst).erase p := by
      rw [hnd.erase_eq_filter, List.filter_map]
      congr 2
      funext x
      rw [Bool.eq_iff_iff]
      simp
    rw [hfilter]
    exact h.live.erase p

/-- One call keeps the invariant, unless it asks for a size that cannot be rounded up. -/
theorem heapCall_owns (h : c.Owns R bs owned) (call : HeapCall)
    (hsize : ∀ size, call = .alloc size → size ≤ 0xFFFFFFF8#32) :
    ∃ c' answer, heapCall c call = some (c', answer) ∧
      ∃ bs', c'.Owns R bs' (heapOwned owned (call, answer)) := by
  cases call with
  | alloc size =>
    rcases heapFirstFitAlloc_spec h.describes size with
      ⟨hres, -⟩ | ⟨s', p, l₁, b, mid', l₂, rfl, hres, ha⟩
    · simp only [heapCall, hres]
      exact ⟨c, 0#32, by simp, bs, by simpa [heapOwned] using h⟩
    · obtain ⟨hp, howns⟩ := ha.owns h (hsize size rfl)
      simp only [heapCall, hres]
      exact ⟨⟨s', p :: c.live⟩, p, by simp [hp], _, by simpa [heapOwned, hp] using howns⟩
  | free p =>
    by_cases hp : p ∈ c.live
    · obtain ⟨s', l₁, pre, b, post, l₂, m, rfl, hres, hf⟩ := heapFirstFitFree_spec h.describes hp
      simp only [heapCall, if_pos hp, hres]
      exact ⟨_, _, rfl, _, hf.owns h⟩
    · simp only [heapCall, if_neg hp]
      refine ⟨c, 0#32, rfl, bs, ?_⟩
      have hkeep : heapOwned owned (.free p, 0#32) = owned := by
        refine List.filter_eq_self.mpr fun a ha => ?_
        have hmem := h.live.subset (List.mem_map_of_mem ha)
        simp only [ne_eq, decide_eq_true_eq]
        rintro rfl
        exact hp hmem
      rwa [hkeep]

/-- A size that wraps around gets a block that is too small for it: no block has so many bytes. -/
theorem HeapClient.Owns.not_serves_of_lt (h : c.Owns R bs owned) {size p : U32} {s' : HeapState}
    (hres : heapFirstFitAlloc size c.heap = some (s', p)) (hsize : 0xFFFFFFF8#32 < size) :
    ¬ s'.Serves ((p, size) :: owned) := by
  intro hserves
  obtain ⟨hlo, hhi⟩ := hserves.inside (p, size) List.mem_cons_self
  have hstart : s'.heapStart = R.start := by
    rcases heapFirstFitAlloc_spec h.describes size with
      ⟨hres', -⟩ | ⟨s'', p', l₁, b, mid', l₂, -, hres', ha⟩
    · rw [hres, Option.some_inj, Prod.mk.injEq] at hres'
      rw [hres'.1, h.describes.start]
    · rw [hres, Option.some_inj, Prod.mk.injEq] at hres'
      rw [hres'.1, ha.replaces.same.heapStart, h.describes.start]
  have hpos := R.start_pos
  have haligned := R.start_aligned
  have hbrk := s'.heapBrk.isLt
  rw [hstart] at hlo
  rw [BitVec.lt_def] at hsize
  change R.start.toNat ≤ p.toNat at hlo
  change p.toNat + size.toNat ≤ _ at hhi
  change 4294967288 < size.toNat at hsize
  omega

end Owns

/-! ### Every run -/

/-- The live allocations after calls and their answers. -/
def heapOwnedAfter (trace : List (HeapCall × U32)) : List (U32 × U32) := trace.foldl heapOwned []

/-- **Every result owns the bytes that were asked for, unless the size wraps around.** In every run
whose requests can be rounded up to a multiple of 8, every live allocation is aligned, inside the heap
and disjoint from the others and from all headers; and whatever size is asked for next, the promise
holds for a result exactly when that size can be rounded up. -/
theorem firstFit_serves (R : HeapRegion) (s₀ : HeapState) (calls : List HeapCall)
    (hsize : ∀ size, .alloc size ∈ calls → size ≤ 0xFFFFFFF8#32) :
    ∃ c answers, (firstFitMachine R s₀).run calls = some (c, answers) ∧
      c.heap.Serves (heapOwnedAfter (calls.zip answers)) ∧
      ∀ size, ∃ s' p, heapFirstFitAlloc size c.heap = some (s', p) ∧
        (p ≠ 0#32 → (s'.Serves ((p, size) :: heapOwnedAfter (calls.zip answers)) ↔
          size ≤ 0xFFFFFFF8#32)) := by
  obtain ⟨c, answers, hrun, bs, h⟩ := Machine.runFrom_trace_of (M := firstFitMachine R s₀)
    (R := fun c owned => ∃ bs, c.Owns R bs owned)
    (C := fun call => ∀ size, call = .alloc size → size ≤ 0xFFFFFFF8#32) heapOwned
    (fun _ _ call hcall ⟨_, h⟩ => by
      obtain ⟨c', answer, hres, howns⟩ := heapCall_owns h call hcall
      exact ⟨c', answer, hres, howns⟩)
    calls (fun call hmem size heq => hsize size (heq ▸ hmem)) (firstFitMachine R s₀).init []
    ⟨_, heapFirstFitInit_describes R s₀, by simp, List.Perm.nil⟩
  refine ⟨c, answers, hrun, h.serves, fun size => ?_⟩
  rcases heapFirstFitAlloc_spec h.describes size with
    ⟨hres, -⟩ | ⟨s', p, l₁, b, mid', l₂, rfl, hres, ha⟩
  · exact ⟨_, _, hres, fun hne => absurd rfl hne⟩
  · refine ⟨s', p, hres, fun _ => ⟨fun hserves => ?_, fun hle => (ha.owns h hle).2.serves⟩⟩
    by_contra hlt
    exact h.not_serves_of_lt hres (BitVec.not_le.mp hlt) hserves

/-- The region that `kmalloc_init` gives to the backend: the 16 pages from `KHEAP_START` on. -/
def bootHeap : HeapRegion where
  start := kheapStart
  size := 0x10000#32
  start_pos := by decide
  start_aligned := by decide
  size_aligned := by decide
  header_le := by decide
  stop_lt := by decide

/-- The static data of the backend in a memory of zeros. -/
def blankHeap : HeapState := ⟨0#32, 0#32, 0#32, 0#32, fun _ => ⟨0#32, false, 0#32, 0#32⟩⟩

/-- A request for `0xFFFFFFFF` bytes is rounded to none: the first call gets the 16 bytes behind the
first header, and the promise is broken. -/
theorem firstFit_serves_refuted :
    ∃ c, (firstFitMachine bootHeap blankHeap).run [.alloc 0xFFFFFFFF#32] =
        some (c, [0xE0000010#32]) ∧
      ¬ c.heap.Serves (heapOwnedAfter ([.alloc 0xFFFFFFFF#32].zip [0xE0000010#32])) := by
  refine ⟨_, rfl, fun hserves => ?_⟩
  have hinside := (hserves.inside (0xE0000010#32, 0xFFFFFFFF#32) (by decide)).2
  exact absurd hinside (by decide)

/-- Two requests in the boot heap. -/
theorem firstFit_serves_sample :
    ∃ c answers, (firstFitMachine bootHeap blankHeap).run [.alloc 100#32, .alloc 0xFFFFFFF8#32] =
        some (c, answers) ∧
      c.heap.Serves (heapOwnedAfter ([.alloc 100#32, .alloc 0xFFFFFFF8#32].zip answers)) ∧
      ∀ size, ∃ s' p, heapFirstFitAlloc size c.heap = some (s', p) ∧
        (p ≠ 0#32 → (s'.Serves ((p, size) :: heapOwnedAfter
          ([.alloc 100#32, .alloc 0xFFFFFFF8#32].zip answers)) ↔ size ≤ 0xFFFFFFF8#32)) :=
  firstFit_serves bootHeap blankHeap [.alloc 100#32, .alloc 0xFFFFFFF8#32] (by
    intro size hmem
    simp only [List.mem_cons, HeapCall.alloc.injEq, List.not_mem_nil, or_false] at hmem
    rcases hmem with rfl | rfl <;> decide)

/-! ### Growth -/

/-- A free block of the heap is large enough for the request. -/
def HeapState.HasRoom (s : HeapState) (size : U32) : Prop :=
  ∃ b, s.InList b ∧ (s.header b).isFree ∧ align8 size ≤ (s.header b).size

/-- `n` more pages behind `heap_brk` make room for the request: they extend the last block when it is
free, and become a block of their own when it is not. -/
def HeapState.EnoughPages (s : HeapState) (size : U32) (n : ℕ) : Prop :=
  ∃ b, s.InList b ∧ (s.header b).next = 0#32 ∧
    if (s.header b).isFree then (align8 size).toNat ≤ (s.header b).size.toNat + n * 4096
    else headerSize.toNat + (align8 size).toNat ≤ n * 4096

/-- Enough pages would take `heap_brk` past `KHEAP_END`. -/
def HeapState.PastEnd (s : HeapState) (size : U32) : Prop :=
  ∀ n, s.EnoughPages size n → kheapEnd.toNat < s.heapBrk.toNat + n * 4096

/-- **Growth on demand**: `NULL` only when the heap cannot be extended any more. The function asks
neither `pmm_alloc_page` nor `vmm_map_page` for anything, so a failure of theirs is never the reason. -/
def HeapState.GrowsOnDemand (s : HeapState) (size : U32) : Prop :=
  ∀ s', heapFirstFitAlloc size s = some (s', 0#32) → s.PastEnd size

/-- `heap_first_fit_alloc` returns `NULL` exactly when no free block is large enough. -/
theorem HeapClient.Describes.alloc_eq_null_iff {c : HeapClient} {R : HeapRegion} {bs : List Block}
    (h : c.Describes R bs) (size : U32) :
    (∃ s', heapFirstFitAlloc size c.heap = some (s', 0#32)) ↔ ¬ c.heap.HasRoom size := by
  rcases heapFirstFitAlloc_spec h size with ⟨hres, hno⟩ | ⟨s', p, l₁, b, mid', l₂, rfl, hres, ha⟩
  · refine ⟨fun _ ⟨x, hx, hfree, hle⟩ => ?_, fun _ => ⟨_, hres⟩⟩
    obtain ⟨l₁, b, l₂, rfl, rfl⟩ := h.holds.mem_of_inList hx
    rw [h.holds.header] at hfree hle
    exact hno b (by simp) ⟨hfree, hle⟩
  · have hp := (ha.describes h).1
    constructor
    · rintro ⟨s'', hnull⟩
      rw [hres, Option.some_inj, Prod.mk.injEq] at hnull
      exact absurd hnull.2 hp
    · intro hno
      have hholds := h.holds
      rw [List.append_assoc, List.singleton_append] at hholds
      refine absurd ⟨b.addr, hholds.inList, ?_⟩ hno
      rw [hholds.header]
      exact ⟨ha.isFree, ha.le_size⟩

/-- **The heap does not grow.** After any calls, a request is served or refused for want of addresses
exactly when a free block is large enough for it or the heap cannot be extended: `heap_grow` has no
caller. -/
theorem firstFit_growsOnDemand_iff (R : HeapRegion) (s₀ : HeapState) (calls : List HeapCall) :
    ∃ c answers, (firstFitMachine R s₀).run calls = some (c, answers) ∧
      ∀ size, c.heap.GrowsOnDemand size ↔ c.heap.HasRoom size ∨ c.heap.PastEnd size := by
  obtain ⟨c, answers, hrun, bs, h, -⟩ := firstFit_run R s₀ calls
  refine ⟨c, answers, hrun, fun size => ?_⟩
  have hnull := h.alloc_eq_null_iff size
  constructor
  · intro hgrows
    by_cases hroom : c.heap.HasRoom size
    · exact .inl hroom
    · obtain ⟨s', hres⟩ := hnull.mpr hroom
      exact .inr (hgrows s' hres)
  · rintro (hroom | hpast) s' hres
    · exact absurd hroom (hnull.mp ⟨s', hres⟩)
    · exact hpast

/-- One allocation takes the whole boot heap, and the next one is refused, although one more page would
hold it and end far below `KHEAP_END`. -/
theorem firstFit_growsOnDemand_refuted :
    ∃ c, (firstFitMachine bootHeap blankHeap).run [.alloc 65520#32] = some (c, [0xE0000010#32]) ∧
      0#32 < 8#32 ∧ 8#32 ≤ kheapMaxSize - 16#32 ∧ ¬ c.heap.GrowsOnDemand 8#32 := by
  refine ⟨_, rfl, by decide, by decide, fun hgrows => ?_⟩
  have hpast := hgrows _ rfl 1 ⟨kheapStart, ?_, rfl, by decide⟩
  · exact absurd hpast (by decide)
  · exact .head (by decide)

end Microkernel.Heap
