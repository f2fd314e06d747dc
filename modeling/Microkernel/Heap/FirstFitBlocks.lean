import Microkernel.Heap.FirstFit
import Microkernel.Lib.IntervalList

/-! # Lists of heap blocks

The heap as a list of blocks in memory order, and what it means that the headers hold such a list.
The list edits of the backend are here: changing one block, cutting a block in two, and merging a
block with the next one. Each says which headers it writes.

* **`HeapState.Holds`** — the list of the headers is a given list of blocks, linked both ways.
* **`Holds.replace`, `Holds.cut`, `Holds.merge`** — the three edits, each an equation on the list of
  blocks.
* **`HeapState.SameExcept`** — the frame of an edit: the headers that it does not name are untouched.
-/

namespace Microkernel.Heap

open Function (update)

/-- A block: its header's address, its data size and whether it is free. -/
structure Block where
  addr : U32
  size : U32
  isFree : Bool
  deriving DecidableEq, Repr

namespace Block

/-- Where the header begins. -/
def lo (b : Block) : ℕ := b.addr.toNat

/-- Where the data end: the next block begins there. -/
def hi (b : Block) : ℕ := b.addr.toNat + 16 + b.size.toNat

/-- A block has its header, so it is not empty. -/
theorem lo_lt_hi (b : Block) : b.lo < b.hi := by unfold lo hi; omega

/-- The block after merging with the one behind it. -/
def absorb (b v : Block) : Block := ⟨b.addr, b.size + (headerSize + v.size), b.isFree⟩

end Block

/-- The address of the first block, or `z` if there is none. -/
def headAddr (z : U32) : List Block → U32
  | [] => z
  | b :: _ => b.addr

/-- The address of the last block, or `p` if there is none. -/
def lastAddr (p : U32) : List Block → U32
  | [] => p
  | b :: l => lastAddr b.addr l

/-- The first address of two lists of blocks. -/
theorem headAddr_append (z : U32) (l₁ l₂ : List Block) :
    headAddr z (l₁ ++ l₂) = headAddr (headAddr z l₂) l₁ := by cases l₁ <;> rfl

/-- The last address of two lists of blocks. -/
theorem lastAddr_append (p : U32) (l₁ l₂ : List Block) :
    lastAddr p (l₁ ++ l₂) = lastAddr (lastAddr p l₁) l₂ := by
  induction l₁ generalizing p with
  | nil => rfl
  | cons c l₁ ih => exact ih c.addr

/-- The headers hold the blocks of the list, linked both ways; `p` comes before them, `z` after. -/
def LaidOut (h : U32 → BlockHeader) : U32 → U32 → List Block → Prop
  | _, _, [] => True
  | p, z, b :: l =>
      h b.addr = ⟨b.size, b.isFree, headAddr z l, p⟩ ∧ LaidOut h b.addr z l

section LaidOut
variable {h h' : U32 → BlockHeader} {p p' z : U32} {l l₁ l₂ : List Block} {b : Block}

/-- **Blocks in two parts** lie one behind the other, linked where they meet. -/
theorem laidOut_append :
    LaidOut h p z (l₁ ++ l₂) ↔
      LaidOut h p (headAddr z l₂) l₁ ∧ LaidOut h (lastAddr p l₁) z l₂ := by
  induction l₁ generalizing p with
  | nil => simp [LaidOut, lastAddr]
  | cons b l₁ ih => rw [List.cons_append, LaidOut, LaidOut, lastAddr, ih, headAddr_append, and_assoc]

/-- The headers around one block. -/
theorem laidOut_middle :
    LaidOut h p z (l₁ ++ b :: l₂) ↔
      LaidOut h p b.addr l₁ ∧ h b.addr = ⟨b.size, b.isFree, headAddr z l₂, lastAddr p l₁⟩ ∧
        LaidOut h b.addr z l₂ := laidOut_append

/-- Only the headers of the blocks matter. -/
theorem LaidOut.congr (hl : LaidOut h p z l) (hh : ∀ b ∈ l, h' b.addr = h b.addr) :
    LaidOut h' p z l := by
  induction l generalizing p with
  | nil => trivial
  | cons b l ih =>
      refine ⟨?_, ih hl.2 fun c hc => hh c (by simp [hc])⟩
      rw [hh b (by simp)]
      exact hl.1

/-- Rewriting the `prev` field of the first block moves the list behind another block. -/
theorem LaidOut.reprev (hl : LaidOut h p z l)
    (hhead : ∀ b ∈ l.head?, h' b.addr = { h b.addr with prev := p' })
    (hh : ∀ b ∈ l.tail, h' b.addr = h b.addr) : LaidOut h' p' z l := by
  cases l with
  | nil => trivial
  | cons b l =>
      refine ⟨?_, hl.2.congr hh⟩
      rw [hhead b rfl, hl.1]

end LaidOut

/-! ### States that hold a list -/

/-- The heap's list consists of the given blocks. -/
structure HeapState.Holds (s : HeapState) (bs : List Block) : Prop where
  head : s.freeList = headAddr 0#32 bs
  laidOut : LaidOut s.header 0#32 0#32 bs
  /-- No two blocks share a header. -/
  nodup : (bs.map Block.addr).Nodup
  /-- No header is at `NULL`. -/
  ne_null : ∀ b ∈ bs, b.addr ≠ 0#32

/-- The second state differs from the first in the headers at `A` only. -/
structure HeapState.SameExcept (s s' : HeapState) (A : List U32) : Prop where
  heapStart : s'.heapStart = s.heapStart
  heapBrk : s'.heapBrk = s.heapBrk
  heapEnd : s'.heapEnd = s.heapEnd
  freeList : s'.freeList = s.freeList
  header : ∀ x, x ∉ A → s'.header x = s.header x

namespace HeapState

/-- Two changes of the same headers. -/
theorem SameExcept.trans {s t u : HeapState} {A : List U32} (h₁ : s.SameExcept t A)
    (h₂ : t.SameExcept u A) : s.SameExcept u A :=
  ⟨h₂.heapStart.trans h₁.heapStart, h₂.heapBrk.trans h₁.heapBrk, h₂.heapEnd.trans h₁.heapEnd,
    h₂.freeList.trans h₁.freeList, fun x hx => (h₂.header x hx).trans (h₁.header x hx)⟩

/-- A change of fewer headers is a change of more. -/
theorem SameExcept.mono {s t : HeapState} {A B : List U32} (h : s.SameExcept t A) (hAB : A ⊆ B) :
    s.SameExcept t B :=
  ⟨h.heapStart, h.heapBrk, h.heapEnd, h.freeList, fun x hx => h.header x fun hA => hx (hAB hA)⟩

/-- Rewriting one header changes that header. -/
theorem sameExcept_modify (s : HeapState) (b : U32) (f : BlockHeader → BlockHeader) {A : List U32}
    (hb : b ∈ A) : s.SameExcept (s.modify b f) A :=
  ⟨rfl, rfl, rfl, rfl, fun x hx => Function.update_of_ne (fun hxb : x = b => hx (hxb ▸ hb)) ..⟩

/-- The headers after one is written. -/
theorem header_modify (s : HeapState) (b x : U32) (f : BlockHeader → BlockHeader) :
    (s.modify b f).header x = if x = b then f (s.header b) else s.header x :=
  Function.update_apply ..

variable {s s' : HeapState} {l₁ l₂ : List Block} {b v n : Block}

/-- The header of a listed block. -/
theorem Holds.header (h : s.Holds (l₁ ++ b :: l₂)) :
    s.header b.addr = ⟨b.size, b.isFree, headAddr 0#32 l₂, lastAddr 0#32 l₁⟩ :=
  (laidOut_middle.mp h.laidOut).2.1

/-- The next pointer is `NULL` exactly for the last block. -/
theorem Holds.next_eq_zero (h : s.Holds (l₁ ++ b :: l₂)) :
    headAddr 0#32 l₂ = 0#32 ↔ l₂ = [] := by
  cases l₂ with
  | nil => simp [headAddr]
  | cons c l₂ =>
    have hc := h.ne_null c (by simp)
    simpa [headAddr] using hc

/-- Putting other blocks in the place of some, from the same address on. -/
theorem Holds.splice {mid mid' : List Block} (h : s.Holds (l₁ ++ mid ++ l₂))
    (hfree : s'.freeList = s.freeList) (hhead : headAddr 0#32 mid' = headAddr 0#32 mid)
    (hmid : mid ≠ []) (hmid' : mid' ≠ []) (hnd : ((l₁ ++ mid' ++ l₂).map Block.addr).Nodup)
    (hnull : ∀ b ∈ mid', b.addr ≠ 0#32) (h₁ : ∀ c ∈ l₁, s'.header c.addr = s.header c.addr)
    (hlaid : LaidOut s'.header (lastAddr 0#32 l₁) (headAddr 0#32 l₂) mid')
    (h₂ : LaidOut s'.header (lastAddr 0#32 (l₁ ++ mid')) 0#32 l₂) :
    s'.Holds (l₁ ++ mid' ++ l₂) := by
  have hhead' : ∀ z, headAddr z mid' = headAddr z mid := by
    intro z
    cases mid with
    | nil => exact absurd rfl hmid
    | cons b mid =>
      cases mid' with
      | nil => exact absurd rfl hmid'
      | cons b' mid' => exact hhead
  obtain ⟨hl₁, -⟩ := laidOut_append.mp (laidOut_append.mp h.laidOut).1
  refine ⟨?_, laidOut_append.mpr ⟨laidOut_append.mpr ⟨?_, hlaid⟩, h₂⟩, hnd, ?_⟩
  · rw [hfree, h.head]
    simp only [headAddr_append, hhead']
  · rw [hhead']
    exact hl₁.congr h₁
  · intro b hb
    rcases List.mem_append.mp hb with hb | hb
    · rcases List.mem_append.mp hb with hb | hb
      · exact h.ne_null b (by simp [hb])
      · exact hnull b hb
    · exact h.ne_null b (by simp [hb])

/-- The addresses around a block differ from its own. -/
theorem Holds.ne_of_mem (h : s.Holds (l₁ ++ b :: l₂)) :
    (∀ c ∈ l₁, c.addr ≠ b.addr) ∧ ∀ c ∈ l₂, c.addr ≠ b.addr := by
  have hnd := h.nodup
  rw [List.map_append, List.map_cons, List.nodup_append', List.nodup_cons] at hnd
  obtain ⟨-, ⟨hb, -⟩, hdisj⟩ := hnd
  constructor
  · intro c hc heq
    exact hdisj (List.mem_map_of_mem hc) (by rw [heq]; exact List.mem_cons_self)
  · intro c hc heq
    exact hb (heq ▸ List.mem_map_of_mem hc)

/-- The blocks that are not next to the gap behind a block have other addresses than the block and
the one that follows it. -/
theorem Holds.ne_headAddr (h : s.Holds (l₁ ++ b :: l₂)) :
    ∀ c ∈ l₁ ++ l₂.tail, c.addr ≠ b.addr ∧ c.addr ≠ headAddr 0#32 l₂ := by
  intro c hc
  obtain ⟨hne₁, hne₂⟩ := h.ne_of_mem
  have hnd := h.nodup
  cases l₂ with
  | nil =>
    have hc : c ∈ l₁ := by simpa using hc
    exact ⟨hne₁ c hc, h.ne_null c (by simp [hc])⟩
  | cons d l₂ =>
    simp only [List.tail_cons, List.mem_append] at hc
    have hd : ∀ c ∈ l₁ ++ l₂, c.addr ≠ d.addr := by
      intro c hc
      rw [List.append_cons] at h
      exact (List.mem_append.mp hc).elim (fun hc => h.ne_of_mem.1 c (by simp [hc])) (h.ne_of_mem.2 c)
    refine ⟨hc.elim (hne₁ c) fun hc => hne₂ c (by simp [hc]), hd c (List.mem_append.mpr hc)⟩

/-- **Changing** size and state of one block, its links kept. -/
theorem Holds.replace (h : s.Holds (l₁ ++ b :: l₂)) (hv : v.addr = b.addr)
    (hsame : s.SameExcept s' [b.addr])
    (hb' : s'.header b.addr = ⟨v.size, v.isFree, headAddr 0#32 l₂, lastAddr 0#32 l₁⟩) :
    s'.Holds (l₁ ++ v :: l₂) := by
  obtain ⟨hne₁, hne₂⟩ := h.ne_of_mem
  have hl₂ := (laidOut_middle.mp h.laidOut).2.2
  have hnd := h.nodup
  rw [List.append_cons] at h ⊢
  refine h.splice hsame.freeList hv (by simp) (by simp) ?_ ?_ ?_ ⟨?_, trivial⟩ ?_
  · rw [← List.append_cons]
    simpa [hv] using hnd
  · simpa [hv] using h.ne_null b (by simp)
  · exact fun c hc => hsame.header _ (by simpa using hne₁ c hc)
  · rw [hv]
    exact hb'
  · rw [lastAddr_append, lastAddr, lastAddr, hv]
    exact hl₂.congr fun c hc => hsame.header _ (by simpa using hne₂ c hc)

/-- **Cutting** a block in two: `b` keeps its first part `v`, and `n` is put behind it. -/
theorem Holds.cut (h : s.Holds (l₁ ++ b :: l₂)) (hv : v.addr = b.addr)
    (hn : ∀ c ∈ l₁ ++ b :: l₂, c.addr ≠ n.addr) (hn₀ : n.addr ≠ 0#32)
    (hsame : s.SameExcept s' [b.addr, n.addr, headAddr 0#32 l₂])
    (hb' : s'.header b.addr = ⟨v.size, v.isFree, n.addr, lastAddr 0#32 l₁⟩)
    (hn' : s'.header n.addr = ⟨n.size, n.isFree, headAddr 0#32 l₂, b.addr⟩)
    (hc' : ∀ c ∈ l₂.head?, s'.header c.addr = { s.header c.addr with prev := n.addr }) :
    s'.Holds (l₁ ++ v :: n :: l₂) := by
  have hl₂ := (laidOut_middle.mp h.laidOut).2.2
  have hnd := h.nodup
  have hnull := h.ne_null
  have hout : ∀ c ∈ l₁ ++ l₂.tail, s'.header c.addr = s.header c.addr := by
    intro c hc
    obtain ⟨hcb, hch⟩ := h.ne_headAddr c hc
    have hcn := hn c (by
      rcases List.mem_append.mp hc with hc | hc
      exacts [by simp [hc], by simp [List.mem_of_mem_tail hc]])
    exact hsame.header _ (by simp [hcb, hcn, hch])
  have hlist : l₁ ++ v :: n :: l₂ = l₁ ++ [v, n] ++ l₂ := by simp
  rw [hlist]
  rw [List.append_cons] at h
  refine h.splice hsame.freeList hv (by simp) (by simp) ?_ ?_
    (fun c hc => hout c (List.mem_append_left _ hc)) ⟨?_, ?_, trivial⟩ ?_
  · -- the new address is not among the others
    have hnl : n.addr ∉ (l₁ ++ b :: l₂).map Block.addr := by
      intro hmem
      obtain ⟨c, hc, heq⟩ := List.mem_map.mp hmem
      exact hn c hc heq
    simp only [List.map_append, List.map_cons, List.map_nil, List.mem_append, List.mem_cons, not_or,
      List.nodup_append', List.nodup_cons, List.disjoint_cons_right] at hnd hnl ⊢
    rw [hv]
    simp only [List.Disjoint, List.mem_append, List.mem_cons, List.not_mem_nil] at hnd ⊢
    grind
  · simpa [hv, hn₀] using hnull b (by simp)
  · rw [hv]
    exact hb'
  · rw [hv]
    exact hn'
  · rw [lastAddr_append, lastAddr, lastAddr, lastAddr]
    exact hl₂.reprev hc' fun c hc => hout c (List.mem_append_right _ hc)

/-- **Merging** a block with the next one. -/
theorem Holds.merge (h : s.Holds (l₁ ++ b :: v :: l₂))
    (hsame : s.SameExcept s' [b.addr, headAddr 0#32 l₂])
    (hb' : s'.header b.addr = ⟨(b.absorb v).size, b.isFree, headAddr 0#32 l₂, lastAddr 0#32 l₁⟩)
    (hc' : ∀ c ∈ l₂.head?, s'.header c.addr = { s.header c.addr with prev := b.addr }) :
    s'.Holds (l₁ ++ b.absorb v :: l₂) := by
  have hl₂ : LaidOut s.header v.addr 0#32 l₂ := (laidOut_middle.mp h.laidOut).2.2.2
  have hnd := h.nodup
  have hnull := h.ne_null
  have hout : ∀ c ∈ l₁ ++ l₂.tail, s'.header c.addr = s.header c.addr := by
    intro c hc
    have hcb : c.addr ≠ b.addr := by
      rcases List.mem_append.mp hc with hc | hc
      · exact h.ne_of_mem.1 c hc
      · exact h.ne_of_mem.2 c (by simp [List.mem_of_mem_tail hc])
    rw [List.append_cons] at h
    have hch := (h.ne_headAddr c (by
      rcases List.mem_append.mp hc with hc | hc
      exacts [by simp [hc], by simp [hc]])).2
    exact hsame.header _ (by simp [hcb, hch])
  -- the merge is a splice of `[b, v]` for the one block that absorbs both
  have hlist : l₁ ++ b :: v :: l₂ = l₁ ++ [b, v] ++ l₂ := by simp
  rw [hlist] at h
  rw [List.append_cons]
  refine h.splice hsame.freeList rfl (by simp) (by simp) ?_ ?_
    (fun c hc => hout c (List.mem_append_left _ hc)) ⟨hb', trivial⟩ ?_
  · refine hnd.sublist ?_
    rw [← List.append_cons, List.map_append, List.map_append]
    exact List.Sublist.append_left (by simp [Block.absorb]) _
  · simpa [Block.absorb] using hnull b (by simp)
  · rw [lastAddr_append, lastAddr, lastAddr]
    exact hl₂.reprev hc' fun c hc => hout c (List.mem_append_right _ hc)

end HeapState

end Microkernel.Heap
