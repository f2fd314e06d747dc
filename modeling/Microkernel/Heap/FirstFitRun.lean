import Microkernel.Heap.FirstFitInvariant

/-! # Runs of the first-fit heap

The invariant read off the headers themselves, without the list of blocks, and the theorem about
every run from `heap_first_fit_init`.

* **`HeapState.WellFormed`, `HeapState.InList`** — order, tiling and the state of every block, said of the
  headers that are reached along `next`.
* **`firstFit_run`** — the theorem: every call returns, a failed allocation changes nothing, only the
  block and its free neighbours change, and once everything has been given back the heap is one block
  again.
-/

namespace Microkernel.Heap

open IntervalList (Tiles)

/-! ### The list in memory -/

/-- The headers that are reached from `free_list` along `next`. -/
inductive HeapState.InList (s : HeapState) : U32 → Prop where
  | head : s.freeList ≠ 0#32 → s.InList s.freeList
  | next {b : U32} : s.InList b → (s.header b).next ≠ 0#32 → s.InList (s.header b).next

/-- Where the data of the block at `b` end. -/
def HeapState.blockEnd (s : HeapState) (b : U32) : ℕ :=
  b.toNat + headerSize.toNat + (s.header b).size.toNat

/-- The headers form one doubly linked list in address order whose blocks tile
`[heap_start, heap_brk)`. -/
structure HeapState.WellFormed (s : HeapState) : Prop where
  /-- The first block is at `heap_start`. -/
  head_inList : s.InList s.heapStart
  head_eq : s.freeList = s.heapStart
  head_prev : (s.header s.heapStart).prev = 0#32
  /-- `next` and `prev` are inverse. -/
  prev_next : ∀ b, s.InList b → (s.header b).next ≠ 0#32 →
    (s.header (s.header b).next).prev = b
  next_prev : ∀ b, s.InList b → b ≠ s.heapStart →
    s.InList (s.header b).prev ∧ (s.header (s.header b).prev).next = b
  /-- The list is in address order. -/
  ascending : ∀ b, s.InList b → (s.header b).next ≠ 0#32 → b < (s.header b).next
  /-- Each block begins where the one before it ends, and the last one ends at `heap_brk`. -/
  next_eq : ∀ b, s.InList b → (s.header b).next ≠ 0#32 →
    (s.header b).next.toNat = s.blockEnd b
  last_eq : ∀ b, s.InList b → (s.header b).next = 0#32 → s.blockEnd b = s.heapBrk.toNat
  size_aligned : ∀ b, s.InList b → 8 ∣ (s.header b).size.toNat
  /-- No two neighbours are free. -/
  coalesced : ∀ b, s.InList b → (s.header b).next ≠ 0#32 →
    ¬ ((s.header b).isFree ∧ (s.header (s.header b).next).isFree)

section InList
variable {s : HeapState} {l₁ l₂ bs : List Block} {b : Block} {x : U32}

/-- Every listed block is reached. -/
theorem HeapState.Holds.inList (h : s.Holds (l₁ ++ b :: l₂)) : s.InList b.addr := by
  induction l₁ using List.reverseRecOn generalizing b l₂ with
  | nil =>
    have hhead : s.freeList = b.addr := h.head
    rw [← hhead]
    apply HeapState.InList.head
    rw [hhead]
    exact h.ne_null b (by simp)
  | append_singleton l₁ d ih =>
    have hb := h.ne_null b (by simp)
    rw [List.append_assoc] at h
    have hnext : (s.header d.addr).next = b.addr := by
      rw [h.header]
      rfl
    rw [← hnext]
    apply HeapState.InList.next (ih h)
    rwa [hnext]

/-- Only listed blocks are reached. -/
theorem HeapState.Holds.mem_of_inList (h : s.Holds bs) (hx : s.InList x) :
    ∃ l₁ b l₂, bs = l₁ ++ b :: l₂ ∧ b.addr = x := by
  induction hx with
  | head hne =>
    cases bs with
    | nil => exact absurd h.head hne
    | cons b bs => exact ⟨[], b, bs, rfl, h.head.symm⟩
  | next _ hne ih =>
    obtain ⟨l₁, b, l₂, rfl, rfl⟩ := ih
    rw [h.header] at hne ⊢
    cases l₂ with
    | nil => exact absurd rfl hne
    | cons c l₂ => exact ⟨l₁ ++ [b], c, l₂, by simp, rfl⟩

/-- The second of two neighbours, given the header of the first. -/
theorem HeapState.Holds.next_cons (h : s.Holds (l₁ ++ b :: l₂))
    (hnext : (s.header b.addr).next ≠ 0#32) :
    ∃ d l₃, l₂ = d :: l₃ ∧ (s.header b.addr).next = d.addr := by
  rw [h.header] at hnext ⊢
  cases l₂ with
  | nil => exact absurd rfl hnext
  | cons d l₃ => exact ⟨d, l₃, rfl, rfl⟩

end InList

section Run
variable {c : HeapClient} {R : HeapRegion} {bs : List Block}

/-- The region is not empty, so there is a first block, and it is at the start. -/
theorem HeapClient.Describes.cons (h : c.Describes R bs) :
    ∃ b l, bs = b :: l ∧ b.addr = R.start := by
  have hsize := R.header_le
  have h16 : headerSize.toNat = 16 := rfl
  have htiles := h.tiles
  cases bs with
  | nil =>
    have hempty : R.start.toNat = R.start.toNat + R.size.toNat := htiles
    omega
  | cons b l => exact ⟨b, l, rfl, BitVec.toNat_inj.mp htiles.1⟩

/-- `heap_brk` does not wrap around. -/
theorem HeapClient.Describes.brk_toNat (h : c.Describes R bs) :
    c.heap.heapBrk.toNat = R.start.toNat + R.size.toNat := by
  have hstop := R.stop_lt
  rw [h.brk, BitVec.toNat_add, Nat.mod_eq_of_lt hstop]

/-- The invariant, read off the headers. -/
theorem HeapClient.Describes.wellFormed (h : c.Describes R bs) : c.heap.WellFormed := by
  obtain ⟨b₀, l₀, hbs, hstart⟩ := h.cons
  have h₀ : c.heap.Holds ([] ++ b₀ :: l₀) := by
    have := h.holds
    rwa [hbs] at this
  have hhead : b₀.addr = c.heap.heapStart := hstart.trans h.start.symm
  have hend : ∀ {l₁ b l₂}, bs = l₁ ++ b :: l₂ → c.heap.blockEnd b.addr = b.hi := by
    intro l₁ b l₂ heq
    have hb := h.holds
    rw [heq] at hb
    unfold HeapState.blockEnd
    rw [hb.header]
    rfl
  constructor
  · rw [← hhead]
    exact h₀.inList
  · rw [← hhead]
    exact h₀.head
  · rw [← hhead, h₀.header]
    rfl
  · intro x hx hnext
    obtain ⟨l₁, b, l₂, rfl, rfl⟩ := h.holds.mem_of_inList hx
    obtain ⟨d, l₃, rfl, hd⟩ := h.holds.next_cons hnext
    have hholds := h.holds
    rw [List.append_cons] at hholds
    rw [hd, hholds.header, lastAddr_append, lastAddr, lastAddr]
  · intro x hx hne
    obtain ⟨l₁, b, l₂, heq, rfl⟩ := h.holds.mem_of_inList hx
    -- the block is not the first one, so there is one in front
    rcases List.eq_nil_or_concat' l₁ with rfl | ⟨l₁, d, rfl⟩
    · rw [hbs] at heq
      obtain ⟨rfl, -⟩ : b₀ = b ∧ l₀ = l₂ := by simpa using heq
      exact absurd hhead hne
    · have hholds := h.holds
      rw [heq] at hholds
      have hprev : (c.heap.header b.addr).prev = d.addr := by
        rw [hholds.header, lastAddr_append, lastAddr, lastAddr]
      rw [List.append_assoc] at hholds
      rw [hprev]
      refine ⟨hholds.inList, ?_⟩
      rw [hholds.header]
      rfl
  · intro x hx hnext
    obtain ⟨l₁, b, l₂, rfl, rfl⟩ := h.holds.mem_of_inList hx
    obtain ⟨d, l₃, rfl, hd⟩ := h.holds.next_cons hnext
    have hadj : d.lo = b.hi := (IntervalList.tiles_middle.mp h.tiles).2.1
    have hlt := b.lo_lt_hi
    rw [hd, BitVec.lt_def]
    show b.lo < d.lo
    omega
  · intro x hx hnext
    obtain ⟨l₁, b, l₂, rfl, rfl⟩ := h.holds.mem_of_inList hx
    obtain ⟨d, l₃, rfl, hd⟩ := h.holds.next_cons hnext
    rw [hd, hend rfl]
    exact (IntervalList.tiles_middle.mp h.tiles).2.1
  · intro x hx hnext
    obtain ⟨l₁, b, l₂, rfl, rfl⟩ := h.holds.mem_of_inList hx
    rw [h.holds.header] at hnext
    obtain rfl := h.holds.next_eq_zero.mp hnext
    rw [hend rfl, h.brk_toNat]
    exact (IntervalList.tiles_middle.mp h.tiles).2
  · intro x hx
    obtain ⟨l₁, b, l₂, rfl, rfl⟩ := h.holds.mem_of_inList hx
    rw [h.holds.header]
    exact h.aligned b (by simp)
  · intro x hx hnext
    obtain ⟨l₁, b, l₂, rfl, rfl⟩ := h.holds.mem_of_inList hx
    obtain ⟨d, l₃, rfl, hd⟩ := h.holds.next_cons hnext
    have hdh := h.holds
    rw [List.append_cons] at hdh
    rw [hd, hdh.header, h.holds.header]
    exact (List.isChain_cons_cons.mp (List.isChain_append.mp h.coalesced).2.1).1

/-- When the callers hold nothing, the heap is one free block over the whole region. -/
theorem HeapClient.Describes.eq_of_live_eq_nil (h : c.Describes R bs) (hlive : c.live = []) :
    bs = [⟨R.start, R.size - headerSize, true⟩] := by
  have hall : ∀ b ∈ bs, b.isFree := by
    have hnil : allocated bs = [] := by
      apply List.perm_nil.mp
      rw [← hlive]
      exact h.live.symm
    simpa [allocated, List.filter_eq_nil_iff] using hnil
  obtain ⟨b, l, rfl, hstart⟩ := h.cons
  cases l with
  | cons d l =>
    -- two free neighbours
    exact absurd ⟨hall b (by simp), hall d (by simp)⟩ (List.isChain_cons_cons.mp h.coalesced).1
  | nil =>
    have hhi : b.hi = R.start.toNat + R.size.toNat := h.tiles.2
    have hle := R.header_le
    have hsize : b.size = R.size - headerSize := by
      unfold Block.hi at hhi
      rw [hstart] at hhi
      unfold headerSize at hle ⊢
      bv_omega
    rw [← hstart, ← hsize, ← hall b (by simp)]

/-- What the two operations do in a state: an allocation fails and changes nothing when no free block
is large enough, and takes the first one that is large enough else; a free of a pointer that a caller
holds merges its block with its free neighbours. -/
structure HeapClient.Served (c : HeapClient) (bs : List Block) : Prop where
  alloc : ∀ size,
    (heapFirstFitAlloc size c.heap = some (c.heap, 0#32) ∧
      ∀ b ∈ bs, ¬ (b.isFree ∧ align8 size ≤ b.size)) ∨
    ∃ s' p l₁ b mid' l₂, bs = l₁ ++ [b] ++ l₂ ∧ heapFirstFitAlloc size c.heap = some (s', p) ∧
      c.heap.Allocates s' size p l₁ b mid' l₂
  free : ∀ p ∈ c.live,
    ∃ s' l₁ pre b post l₂ m, bs = l₁ ++ (pre ++ b :: post) ++ l₂ ∧
      heapFirstFitFree p c.heap = some s' ∧ c.heap.Frees s' p l₁ pre b post l₂ m

/-- One call keeps the invariant. -/
theorem heapCall_describes (h : c.Describes R bs) (call : HeapCall) :
    ∃ c' answer, heapCall c call = some (c', answer) ∧ ∃ bs', c'.Describes R bs' := by
  cases call with
  | alloc size =>
    rcases heapFirstFitAlloc_spec h size with ⟨hres, -⟩ | ⟨s', p, l₁, b, mid', l₂, rfl, hres, ha⟩
    · simp only [heapCall, hres]
      exact ⟨c, 0#32, by simp, bs, h⟩
    · obtain ⟨hp, hdesc⟩ := ha.describes h
      simp only [heapCall, hres]
      exact ⟨⟨s', p :: c.live⟩, p, by simp [hp], _, hdesc⟩
  | free p =>
    by_cases hp : p ∈ c.live
    · obtain ⟨s', l₁, pre, b, post, l₂, m, rfl, hres, hf⟩ := heapFirstFitFree_spec h hp
      simp only [heapCall, if_pos hp, hres]
      exact ⟨_, _, rfl, _, hf.describes h⟩
    · simp only [heapCall, if_neg hp]
      exact ⟨c, 0#32, rfl, bs, h⟩

/-- **Every run of the first-fit heap returns and keeps the heap in order.** After any calls, the
headers form a doubly linked list in address order that tiles the region, sizes are multiples of 8, no
two neighbours are free, every call changes only the block it is about and the neighbours it splits or
merges, and once everything is freed the heap is the one free block that `init` made. -/
theorem firstFit_run (R : HeapRegion) (s₀ : HeapState) (calls : List HeapCall) :
    ∃ c answers, (firstFitMachine R s₀).run calls = some (c, answers) ∧
      ∃ bs, c.Describes R bs ∧ c.heap.WellFormed ∧ c.Served bs ∧
        (c.live = [] → bs = [⟨R.start, R.size - headerSize, true⟩]) := by
  obtain ⟨c, answers, hrun, bs, h⟩ := Machine.run_invariant (M := firstFitMachine R s₀)
    (I := fun c => ∃ bs, c.Describes R bs) ⟨_, heapFirstFitInit_describes R s₀⟩
    (fun _ call ⟨_, h⟩ => heapCall_describes h call) calls
  exact ⟨c, answers, hrun, bs, h, h.wellFormed,
    ⟨heapFirstFitAlloc_spec h, fun p => heapFirstFitFree_spec h⟩, h.eq_of_live_eq_nil⟩

end Run

end Microkernel.Heap
