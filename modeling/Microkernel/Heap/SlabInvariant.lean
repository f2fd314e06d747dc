import Microkernel.Heap.SlabLists

/-! # What the slab heap's operations do

Taking a page, creating a slab, taking an object and giving it back, each as a change of the slab lists
and of one bitmap.

* **`SlabState.FlipsBit`** — the step that taking and returning have in common: a bit and the counter
  change, and the slab is not on the right list yet.
* **`FlipsBit.stays`, `FlipsBit.moveToFull`, `FlipsBit.moveToPartial`** — the three ways in which it comes
  to the right one.
* **`slabTakeObject_spec`, `heapSlabFree_spec`** — an object is taken from the first slab with a free one,
  and given back to its own; the two list changes are assembled from the moves.
-/

namespace Microkernel.Heap

open Function (update)

section Slabs
variable {s s' : SlabState} {R : SlabRegion} {part full : ℕ → List U32} {i j : ℕ} {a : U32}

/-- A slab whose header is not written stays what it is. -/
theorem SlabState.HoldsSlab.congr (h : s.HoldsSlab i a) (heq : s'.header a = s.header a) :
    s'.HoldsSlab i a := by
  constructor
  · rw [heq]
    exact h.cacheIdx
  · rw [heq]
    exact h.objSize
  · rw [heq]
    exact h.capacity
  · rw [heq]
    exact h.freeCount
  · rw [heq]
    exact h.tail

/-! ### A new slab -/

/-- `slab_get_page` fails and changes nothing, or takes the next page. -/
theorem slabGetPage_spec (s : SlabState) (phys : U32) (mapOk : Bool) :
    slabGetPage phys mapOk s = (s, 0#32) ∨
    s.slabBrk < kheapEnd ∧ ∃ cm, slabGetPage phys mapOk s =
      ({ s with slabBrk := s.slabBrk + vmmPageSize, slabCommitted := cm }, s.slabBrk) := by
  unfold slabGetPage
  by_cases hend : s.slabBrk ≥ kheapEnd
  · left
    rw [if_pos hend]
  rw [if_neg hend]
  have hlt : s.slabBrk < kheapEnd := BitVec.not_le.mp hend
  by_cases hcommitted : s.slabBrk ≥ s.slabCommitted
  · by_cases hphys : phys = 0#32
    · left
      simp only [if_pos hcommitted, if_pos hphys]
    · cases mapOk with
      | false =>
        left
        simp [if_pos hcommitted]
      | true =>
        right
        refine ⟨hlt, s.slabCommitted + vmmPageSize, ?_⟩
        simp [if_pos hcommitted, if_neg hphys]
  · right
    refine ⟨hlt, s.slabCommitted, ?_⟩
    simp only [if_neg hcommitted]

/-- All bits of the first four words of a cleared bitmap are clear. -/
theorem test_clearedWords (bm : Bitmap 32) {k : ℕ} (hk : k < 128) :
    Bitmap.test (update (update (update (update bm 0 0#32) 1 0#32) 2 0#32) 3 0#32) k = false := by
  have hword : k / 32 = 0 ∨ k / 32 = 1 ∨ k / 32 = 2 ∨ k / 32 = 3 := by omega
  unfold Bitmap.test
  rcases hword with h | h | h | h <;> simp [h, Function.update]

/-- The limit of the pages that were taken is not `NULL`. -/
theorem SlabState.Lists.brk_ne_zero (h : s.Lists R part full) : s.slabBrk ≠ 0#32 := by
  have h₁ := R.start_ne_zero
  have h₂ := h.start_le
  bv_omega

/-- The next page is no slab. -/
theorem SlabState.Lists.brk_notMem (h : s.Lists R part full) (hj : j < numCaches) :
    s.slabBrk ∉ part j ++ full j := fun hmem =>
  BitVec.lt_irrefl _ ((h.pages _).mp ⟨j, hj, hmem⟩).2.2

/-- In the heap the limit moves on without wrapping. -/
theorem slabBrk_next (hbrk : s.slabBrk < kheapEnd) :
    (s.slabBrk + vmmPageSize).toNat = s.slabBrk.toNat + 4096 := by
  unfold kheapEnd kheapStart kheapMaxSize at hbrk
  unfold vmmPageSize
  bv_omega

/-- **The pages below the next limit** are the next page and the slabs. -/
theorem SlabState.Lists.pages_succ (h : s.Lists R part full) (hbrk : s.slabBrk < kheapEnd) (x : U32) :
    x.PageAligned ∧ R.start ≤ x ∧ x < s.slabBrk + vmmPageSize ↔
      x = s.slabBrk ∨ ∃ j < numCaches, x ∈ part j ++ full j := by
  rw [BitVec.lt_def, slabBrk_next hbrk, h.pages x, BitVec.lt_def]
  constructor
  · rintro ⟨h₁, h₂, h₃⟩
    by_cases hx : x = s.slabBrk
    · exact .inl hx
    · -- two aligned pages that differ lie a page apart
      have hbrkdvd := (U32.pageAligned_iff _).mp h.brk_aligned
      have hxdvd := (U32.pageAligned_iff x).mp h₁
      have hxne : x.toNat ≠ s.slabBrk.toNat := fun heq => hx (BitVec.eq_of_toNat_eq heq)
      exact .inr ⟨h₁, h₂, by omega⟩
  · rintro (rfl | ⟨h₁, h₂, h₃⟩)
    · exact ⟨h.brk_aligned, h.start_le, by omega⟩
    · exact ⟨h₁, h₂, by omega⟩

/-- The slabs with the new one in the empty list of its cache. -/
theorem mem_update_singleton (hpart : part i = []) (j : ℕ) (x : U32) :
    x ∈ update part i [a] j ++ full j ↔ j = i ∧ x = a ∨ x ∈ part j ++ full j := by
  by_cases hj : j = i
  · subst hj
    simp [hpart]
  · simp [hj]

/-- The next page becomes the only slab of a cache with a free object. -/
theorem SlabState.Describes.addSlab (h : s.Describes R part full) (hi : i < numCaches)
    (hpart : part i = []) (hbrk : s.slabBrk < kheapEnd)
    (hbrk' : s'.slabBrk = s.slabBrk + vmmPageSize)
    (hcaches : ∀ j, s'.caches j =
      if j = i then { s.caches i with partialSlabs := s.slabBrk } else s.caches j)
    (hout : ∀ x, x ≠ s.slabBrk → s'.header x = s.header x)
    (hnext : (s'.header s.slabBrk).next = 0#32) (hholds : s'.HoldsSlab i s.slabBrk)
    (hcount : (s'.header s.slabBrk).freeCount ≠ 0#32) :
    s'.Describes R (update part i [s.slabBrk]) full := by
  have hold : ∀ j < numCaches, ∀ x ∈ part j ++ full j, s'.header x = s.header x := by
    intro j hj x hx
    refine hout x ?_
    rintro rfl
    exact h.brk_notMem hj hx
  have hmem := @mem_update_singleton part full i s.slabBrk hpart
  refine ⟨⟨?_, ?_, fun j hj => ?_, fun j hj => ?_, fun j hj => ?_, fun j hj => ?_, fun j hj x hx => ?_,
    fun x => ?_⟩, fun j hj x hx => ?_, fun j hj x hx => ?_⟩
  · rw [hbrk', U32.pageAligned_iff, slabBrk_next hbrk]
    have hbrkdvd := (U32.pageAligned_iff _).mp h.brk_aligned
    omega
  · have := h.start_le
    rw [hbrk', BitVec.le_def, slabBrk_next hbrk]
    rw [BitVec.le_def] at this
    omega
  · rw [hcaches]
    split
    · rename_i hji
      rw [hji]
      exact h.objSize i hi
    · exact h.objSize j hj
  · rw [hcaches]
    by_cases hji : j = i
    · subst hji
      rw [if_pos rfl, Function.update_self]
      exact ⟨rfl, h.brk_ne_zero, hnext⟩
    · rw [if_neg hji, Function.update_of_ne hji]
      exact (h.partial_linked j hj).congr fun x hx => by
        rw [hold j hj x (List.mem_append_left _ hx)]
  · have hcongr := @Linked.congr _ _ (fun x => (s'.header x).next) _ _ _ (h.full_linked j hj)
      fun x hx => by rw [hold j hj x (List.mem_append_right _ hx)]
    rw [hcaches]
    split
    · rename_i hji
      subst hji
      exact hcongr
    · exact hcongr
  · by_cases hji : j = i
    · subst hji
      have hnd := h.nodup j hj
      have hnot := h.brk_notMem hj
      rw [hpart, List.nil_append] at hnd hnot
      rw [Function.update_self]
      exact List.nodup_cons.mpr ⟨hnot, hnd⟩
    · rw [Function.update_of_ne hji]
      exact h.nodup j hj
  · rcases (hmem j x).mp hx with ⟨rfl, rfl⟩ | hx
    · exact hholds
    · exact (h.holds j hj x hx).congr (hold j hj x hx)
  · rw [hbrk', h.pages_succ hbrk]
    constructor
    · rintro ⟨j, hj, hx⟩
      exact ((hmem j x).mp hx).imp And.right fun hx => ⟨j, hj, hx⟩
    · rintro (rfl | ⟨j, hj, hx⟩)
      · exact ⟨i, hi, (hmem i s.slabBrk).mpr (.inl ⟨rfl, rfl⟩)⟩
      · exact ⟨j, hj, (hmem j x).mpr (.inr hx)⟩
  · by_cases hji : j = i
    · subst hji
      rw [Function.update_self, List.mem_singleton] at hx
      rw [hx]
      exact hcount
    · rw [Function.update_of_ne hji] at hx
      rw [hold j hj x (List.mem_append_left _ hx)]
      exact h.partial_pos j hj x hx
  · rw [hold j hj x (List.mem_append_right _ hx)]
    exact h.full_zero j hj x hx

/-- `slab_create` for a cache whose list is empty, with the list set to the new slab: it fails and
changes nothing, or adds a slab whose objects are all free. -/
theorem slabCreate_spec (h : s.Describes R part full) (hi : i < numCaches) (hpart : part i = [])
    (phys : U32) (mapOk : Bool) :
    slabCreate i phys mapOk s = (s, 0#32) ∨
    ∃ s₁ a, slabCreate i phys mapOk s = (s₁, a) ∧ a ≠ 0#32 ∧
      (s₁.modifyCache i fun c => { c with partialSlabs := a }).Describes R
        (update part i [a]) full ∧
      (∀ j < numCaches, a ∉ part j ++ full j) ∧
      (∀ x, x ≠ a → s₁.header x = s.header x) ∧
      ∀ k < (slabCapacity i).toNat, (s₁.header a).freeBitmap.test k = true := by
  rcases slabGetPage_spec s phys mapOk with hget | ⟨hbrk, cm, hget⟩
  · left
    unfold slabCreate
    rw [hget]
    rfl
  right
  obtain ⟨-, -, hcap, hcap', -⟩ := slabCapacity_spec i hi
  have hobj := h.objSize i hi
  have hne := h.brk_ne_zero
  -- the header that `slab_create` writes
  set hdr : SlabHeader := ⟨0#32, BitVec.ofNat 32 i, cacheSize i, slabCapacity i, slabCapacity i,
    bitmapSetFirst (update (update (update (update (s.header s.slabBrk).freeBitmap 0 0#32) 1 0#32)
      2 0#32) 3 0#32) (slabCapacity i).toNat⟩ with hhdr
  set s₁ : SlabState := ⟨s.caches, s.slabBrk + vmmPageSize, cm, update s.header s.slabBrk hdr⟩
    with hs₁
  have hres : slabCreate i phys mapOk s = (s₁, s.slabBrk) := by
    have hclamp : ¬ slabCapacity i > 128#32 := by
      intro hgt
      rw [gt_iff_lt, BitVec.lt_def] at hgt
      change 128 < _ at hgt
      omega
    unfold slabCapacity at hclamp
    simp only [slabCreate, hget, if_neg hne, hobj, if_neg hclamp]
    rfl
  have hhead : s₁.header s.slabBrk = hdr := Function.update_self ..
  have hout : ∀ x, x ≠ s.slabBrk → s₁.header x = s.header x := fun x hx =>
    Function.update_of_ne hx ..
  have htest : ∀ k < 128, hdr.freeBitmap.test k = decide (k < (slabCapacity i).toNat) := by
    intro k hk
    rw [hhdr, test_bitmapSetFirst _ hcap', test_clearedWords _ hk, Bool.false_or]
  have hholds : s₁.HoldsSlab i s.slabBrk := by
    refine ⟨by rw [hhead], by rw [hhead], by rw [hhead], ?_, ?_⟩
    · rw [hhead]
      refine (Nat.count_iff_forall.mpr fun k (hk : k < (slabCapacity i).toNat) => ?_).symm
      rw [htest k (by omega)]
      simpa using hk
    · intro k h₁ h₂
      rw [hhead, htest k h₂]
      simpa using h₁
  refine ⟨s₁, s.slabBrk, hres, hne, ?_, fun j hj => h.brk_notMem hj, hout, ?_⟩
  · refine h.addSlab hi hpart hbrk rfl ?_ hout ?_ (hholds.congr rfl) ?_
    · exact fun j => SlabState.caches_modifyCache ..
    · rw [SlabState.header_modifyCache, hhead]
    · rw [SlabState.header_modifyCache, hhead]
      show slabCapacity i ≠ 0#32
      bv_omega
  · intro k hk
    rw [hhead, htest k (by omega)]
    simpa using hk

/-! ### One bit of one slab -/

/-- Changing the bitmap and the counter of one slab, so that the counter counts again. -/
theorem SlabState.Lists.setBitmap (h : s.Lists R part full) (hi : i < numCaches)
    (ha : a ∈ part i ++ full i) {bm : Bitmap 32} {n : U32}
    (hs : ∀ x, s'.header x =
      if x = a then { s.header a with freeBitmap := bm, freeCount := n } else s.header x)
    (hcaches : s'.caches = s.caches) (hbrk : s'.slabBrk = s.slabBrk)
    (hcount : n.toNat = Nat.count (fun k => bm.test k = true) (slabCapacity i).toNat)
    (htail : ∀ k, (slabCapacity i).toNat ≤ k → k < 128 → bm.test k = false) :
    s'.Lists R part full := by
  have hnext : (fun x => (s'.header x).next) = fun x => (s.header x).next := by
    funext x
    rw [hs]
    split
    · rename_i hx
      rw [hx]
    · rfl
  constructor
  · rw [hbrk]
    exact h.brk_aligned
  · rw [hbrk]
    exact h.start_le
  · rw [hcaches]
    exact h.objSize
  · rw [hcaches, hnext]
    exact h.partial_linked
  · rw [hcaches, hnext]
    exact h.full_linked
  · exact h.nodup
  · intro j hj x hx
    have hx' := h.holds j hj x hx
    -- a slab is in the lists of one cache only, so `j` is the cache of `a`
    by_cases hxa : x = a
    · subst hxa
      obtain rfl := (h.holds i hi x ha).inj hx' hi hj
      have heq := (hs x).trans (if_pos rfl)
      refine ⟨?_, ?_, ?_, ?_, ?_⟩
      · rw [heq]
        exact hx'.cacheIdx
      · rw [heq]
        exact hx'.objSize
      · rw [heq]
        exact hx'.capacity
      · rw [heq]
        exact hcount
      · rw [heq]
        exact htail
    · exact hx'.congr ((hs x).trans (if_neg hxa))
  · rw [hbrk]
    exact h.pages

/-- **What taking or returning an object changes**: one bit of slab `a`. -/
structure SlabState.SetsBit (s s' : SlabState) (R : SlabRegion) (part full part' full' : ℕ → List U32)
    (a : U32) (k : ℕ) (v : Bool) : Prop where
  describes : s'.Describes R part' full'
  mem_iff : ∀ i x, x ∈ part' i ++ full' i ↔ x ∈ part i ++ full i
  same : ∀ x, x ≠ a → (s'.header x).freeBitmap = (s.header x).freeBitmap
  bit : ∀ l, (s'.header a).freeBitmap.test l = if l = k then v else (s.header a).freeBitmap.test l

/-- **The first step of it**: the bit is written and the counter counts again, but slab `a` is still on the
list that it was on. -/
structure SlabState.FlipsBit (s s' : SlabState) (R : SlabRegion) (part full : ℕ → List U32) (a : U32)
    (k : ℕ) (v : Bool) : Prop where
  lists : s'.Lists R part full
  other : ∀ x, x ≠ a → s'.header x = s.header x
  bit : ∀ l, (s'.header a).freeBitmap.test l = if l = k then v else (s.header a).freeBitmap.test l

/-- The lists of a cache after one slab went to the front of the other list have the same members. -/
theorem mem_update_append_iff {p f : List U32} (hperm : (p ++ f).Perm (part i ++ full i)) (j : ℕ)
    (x : U32) : x ∈ update part i p j ++ update full i f j ↔ x ∈ part j ++ full j := by
  by_cases hj : j = i
  · subst hj
    rw [Function.update_self, Function.update_self]
    exact hperm.mem_iff
  · rw [Function.update_of_ne hj, Function.update_of_ne hj]

section Bit
variable {l : List U32} {k : ℕ} {v : Bool}

/-- A slab is on the lists of one cache only. -/
theorem SlabState.Lists.ne_of_other (h : s.Lists R part full) (hi : i < numCaches)
    (ha : a ∈ part i ++ full i) (hj : j < numCaches) (hji : j ≠ i) {x : U32} (hx : x ∈ part j ++ full j) :
    x ≠ a := by
  rintro rfl
  exact hji ((h.holds j hj x hx).inj (h.holds i hi x ha) hj hi)

/-- One bit is written, with the counter that belongs to it. -/
theorem SlabState.Lists.flipsBit (h : s.Lists R part full) (hi : i < numCaches)
    (ha : a ∈ part i ++ full i) {bm : Bitmap 32} {n : U32}
    (hs : ∀ x, s'.header x =
      if x = a then { s.header a with freeBitmap := bm, freeCount := n } else s.header x)
    (hcaches : s'.caches = s.caches) (hbrk : s'.slabBrk = s.slabBrk) (hk : k < (slabCapacity i).toNat)
    (htest : ∀ m, bm.test m = if m = k then v else (s.header a).freeBitmap.test m)
    (hcount : n.toNat = Nat.count (fun k => bm.test k = true) (slabCapacity i).toNat) :
    s.FlipsBit s' R part full a k v where
  lists := h.setBitmap hi ha hs hcaches hbrk hcount fun m h₁ h₂ => by
    rw [htest, if_neg (by omega)]
    exact (h.holds i hi a ha).tail m h₁ h₂
  other x hx := (hs x).trans (if_neg hx)
  bit m := by
    rw [hs a, if_pos rfl]
    exact htest m

/-- **The bit of an object that is taken** is cleared, and the counter goes down by one. -/
theorem SlabState.Lists.clearBit (h : s.Lists R part full) (hi : i < numCaches)
    (ha : a ∈ part i ++ full i) (hk : k < (slabCapacity i).toNat)
    (hbit : (s.header a).freeBitmap.test k = true) :
    s.FlipsBit ((s.modify a fun h =>
      { h with freeBitmap := bitmapClearBit h.freeBitmap (BitVec.ofNat 32 k) }).modify a
        fun h => { h with freeCount := h.freeCount - 1#32 }) R part full a k false := by
  obtain ⟨-, -, -, hcap, -⟩ := slabCapacity_spec i hi
  have hk32 : (BitVec.ofNat 32 k).toNat = k := by
    rw [BitVec.toNat_ofNat, Nat.mod_eq_of_lt (by omega)]
  have htest : ∀ m, ((s.header a).freeBitmap.clear k).test m =
      if m = k then false else (s.header a).freeBitmap.test m := by
    intro m
    rw [Bitmap.test_clear (by decide)]
    by_cases hm : m = k <;> simp [hm]
  refine @SlabState.Lists.flipsBit s _ R part full i a k false h hi ha ((s.header a).freeBitmap.clear k)
    ((s.header a).freeCount - 1#32) (fun x => ?_) rfl rfl hk htest ?_
  · by_cases hx : x = a <;> simp [hx, bitmapClearBit_eq, hk32]
  · have hflip := Bitmap.count_flip (p := fun m => ((s.header a).freeBitmap.clear k).test m = true)
      (q := fun m => (s.header a).freeBitmap.test m = true) hk (by simp [htest]) hbit
      (fun m hm => by simp [htest, hm])
    have hfree := (h.holds i hi a ha).freeCount
    bv_omega

/-- **The bit of an object that is returned** is set, and the counter goes up by one. -/
theorem SlabState.Lists.setBit (h : s.Lists R part full) (hi : i < numCaches)
    (ha : a ∈ part i ++ full i) {slot : U32} (hslot : slot.toNat = k) (hk : k < (slabCapacity i).toNat)
    (hbit : (s.header a).freeBitmap.test k = false) :
    s.FlipsBit ((s.modify a fun h => { h with freeBitmap := bitmapSetBit h.freeBitmap slot }).modify a
      fun h => { h with freeCount := h.freeCount + 1#32 }) R part full a k true := by
  obtain ⟨-, -, -, hcap, -⟩ := slabCapacity_spec i hi
  have htest : ∀ m, ((s.header a).freeBitmap.set k).test m =
      if m = k then true else (s.header a).freeBitmap.test m := by
    intro m
    rw [Bitmap.test_set (by decide)]
    by_cases hm : m = k <;> simp [hm]
  refine @SlabState.Lists.flipsBit s _ R part full i a k true h hi ha ((s.header a).freeBitmap.set k)
    ((s.header a).freeCount + 1#32) (fun x => ?_) rfl rfl hk htest ?_
  · by_cases hx : x = a <;> simp [hx, bitmapSetBit_eq, hslot]
  · -- the bit was clear, so the count goes up by one like the number of set bits
    have hflip := Bitmap.count_flip (p := fun m => (s.header a).freeBitmap.test m = true)
      (q := fun m => ((s.header a).freeBitmap.set k).test m = true) hk (by simp [hbit]) (by simp [htest])
      (fun m hm => by simp [htest, hm])
    have hfree := (h.holds i hi a ha).freeCount
    have hle : (s.header a).freeCount.toNat ≤ 128 := by
      rw [hfree]
      exact (Nat.count_le _).trans hcap
    bv_omega

/-- The second step only links slabs to other ones. -/
theorem SlabState.FlipsBit.setsBit {s₂ : SlabState} {part' full' : ℕ → List U32}
    (h : s.FlipsBit s' R part full a k v) (hsame : s'.SameSlabs s₂) (hlists : s₂.Lists R part' full')
    (hpos : ∀ j < numCaches, ∀ x ∈ part' j, (s'.header x).freeCount ≠ 0#32)
    (hzero : ∀ j < numCaches, ∀ x ∈ full' j, (s'.header x).freeCount = 0#32)
    (hmem : ∀ j x, x ∈ part' j ++ full' j ↔ x ∈ part j ++ full j) :
    s.SetsBit s₂ R part full part' full' a k v := by
  refine ⟨⟨hlists, fun j hj x hx => ?_, fun j hj x hx => ?_⟩, hmem, fun x hx => ?_, fun m => ?_⟩
  · rw [hsame.header]
    exact hpos j hj x hx
  · rw [hsame.header]
    exact hzero j hj x hx
  · rw [hsame.header]
    show (s'.header x).freeBitmap = _
    rw [h.other x hx]
  · rw [hsame.header]
    exact h.bit m

/-- The counters of the other slabs are as before. -/
theorem SlabState.FlipsBit.partial_pos (hf : s.FlipsBit s' R part full a k v) (h : s.Describes R part full)
    (hj : j < numCaches) {x : U32} (hx : x ∈ part j) (hxa : x ≠ a) : (s'.header x).freeCount ≠ 0#32 := by
  rw [hf.other x hxa]
  exact h.partial_pos j hj x hx

/-- The slabs of the second list that were not touched have no free object still. -/
theorem SlabState.FlipsBit.full_zero (hf : s.FlipsBit s' R part full a k v) (h : s.Describes R part full)
    (hj : j < numCaches) {x : U32} (hx : x ∈ full j) (hxa : x ≠ a) : (s'.header x).freeCount = 0#32 := by
  rw [hf.other x hxa]
  exact h.full_zero j hj x hx

/-- **A slab that has free objects before and after** stays on its list. -/
theorem SlabState.FlipsBit.stays (hf : s.FlipsBit s' R part full a k v) (h : s.Describes R part full)
    (hi : i < numCaches) (ha : a ∈ part i) (hfree : (s'.header a).freeCount ≠ 0#32) :
    s.SetsBit s' R part full part full a k v := by
  refine hf.setsBit ⟨fun _ => rfl, rfl, fun _ => rfl⟩ hf.lists (fun j hj x hx => ?_) (fun j hj x hx => ?_)
    fun _ _ => Iff.rfl
  · by_cases hxa : x = a
    · rw [hxa]
      exact hfree
    · exact hf.partial_pos h hj hx hxa
  · refine hf.full_zero h hj hx ?_
    by_cases hji : j = i
    · subst hji
      rintro rfl
      exact (List.nodup_append'.mp (h.nodup j hj)).2.2 ha hx
    · exact h.ne_of_other hi (List.mem_append_left _ ha) hj hji (List.mem_append_right _ hx)

/-- **A slab whose last object is taken** goes to the second list. -/
theorem SlabState.FlipsBit.moveToFull (hf : s.FlipsBit s' R part full a k v) (h : s.Describes R part full)
    (hi : i < numCaches) (hl : part i = a :: l) (hlast : (s'.header a).freeCount = 0#32) :
    s.SetsBit (slabMoveToFull i a s') R part full (update part i l) (update full i (a :: full i)) a k v := by
  obtain ⟨hmoved, hsame⟩ := slabMoveToFull_spec hf.lists hi hl
  have ha : a ∈ part i ++ full i := by simp [hl]
  have hnd := h.nodup i hi
  rw [hl, List.cons_append, List.nodup_cons] at hnd
  refine hf.setsBit hsame hmoved (fun j hj x hx => ?_) (fun j hj x hx => ?_)
    fun j x => mem_update_append_iff (by rw [hl]; exact List.perm_middle) j x
  · by_cases hji : j = i
    · subst hji
      rw [Function.update_self] at hx
      refine hf.partial_pos h hj (by simp [hl, hx]) ?_
      rintro rfl
      exact hnd.1 (by simp [hx])
    · rw [Function.update_of_ne hji] at hx
      exact hf.partial_pos h hj hx (h.ne_of_other hi ha hj hji (List.mem_append_left _ hx))
  · by_cases hji : j = i
    · subst hji
      rw [Function.update_self] at hx
      rcases List.mem_cons.mp hx with hxa | hxfull
      · rw [hxa]
        exact hlast
      · refine hf.full_zero h hj hxfull ?_
        rintro rfl
        exact hnd.1 (List.mem_append_right _ hxfull)
    · rw [Function.update_of_ne hji] at hx
      exact hf.full_zero h hj hx (h.ne_of_other hi ha hj hji (List.mem_append_right _ hx))

/-- **A full slab that gets an object back** goes to the front of the first list. -/
theorem SlabState.FlipsBit.moveToPartial {l₁ l₂ : List U32} (hf : s.FlipsBit s' R part full a k v)
    (h : s.Describes R part full) (hi : i < numCaches) (hl : full i = l₁ ++ a :: l₂)
    (hfree : (s'.header a).freeCount ≠ 0#32) :
    ∃ s₂, slabMoveToPartial a s' = some s₂ ∧
      s.SetsBit s₂ R part full (update part i (a :: part i)) (update full i (l₁ ++ l₂)) a k v := by
  obtain ⟨s₂, hs₂, hmoved, hsame⟩ := slabMoveToPartial_spec hf.lists hi hl
  have ha : a ∈ part i ++ full i := by simp [hl]
  have hnd := (List.nodup_append'.mp (h.nodup i hi)).2
  rw [hl, List.perm_middle.nodup_iff, List.nodup_cons] at hnd
  refine ⟨s₂, hs₂, hf.setsBit hsame hmoved (fun j hj x hx => ?_) (fun j hj x hx => ?_)
    fun j x => mem_update_append_iff ?_ j x⟩
  · by_cases hji : j = i
    · subst hji
      rw [Function.update_self] at hx
      rcases List.mem_cons.mp hx with hxa | hxpart
      · rw [hxa]
        exact hfree
      · refine hf.partial_pos h hj hxpart ?_
        rintro rfl
        exact hnd.2 hxpart (by simp)
    · rw [Function.update_of_ne hji] at hx
      exact hf.partial_pos h hj hx (h.ne_of_other hi ha hj hji (List.mem_append_left _ hx))
  · by_cases hji : j = i
    · subst hji
      rw [Function.update_self] at hx
      refine hf.full_zero h hj ?_ ?_
      · rw [hl]
        rcases List.mem_append.mp hx with hx | hx <;> simp [hx]
      · rintro rfl
        exact hnd.1.1 hx
    · rw [Function.update_of_ne hji] at hx
      exact hf.full_zero h hj hx (h.ne_of_other hi ha hj hji (List.mem_append_right _ hx))
  · rw [hl, List.cons_append]
    refine List.perm_middle.symm.trans (List.Perm.append_left _ ?_)
    exact List.perm_middle.symm

/-- **A slab of the first list has a free slot**, and the search finds one. -/
theorem SlabState.Describes.findsFree (h : s.Describes R part full) (hi : i < numCaches) (ha : a ∈ part i) :
    ∃ k, bitmapFindFirstSet (s.header a).freeBitmap (slabCapacity i) = some k ∧
      k < (slabCapacity i).toNat ∧ (s.header a).freeBitmap.test k = true := by
  obtain ⟨-, -, -, hcap, -⟩ := slabCapacity_spec i hi
  have hpos : 0 < (s.header a).freeCount.toNat := by
    have := h.partial_pos i hi a ha
    bv_omega
  rw [(h.holds i hi a (List.mem_append_left _ ha)).freeCount] at hpos
  have hfind := bitmapFindFirstSet_spec (s.header a).freeBitmap hcap
  cases hres : bitmapFindFirstSet (s.header a).freeBitmap (slabCapacity i) with
  | some k =>
    rw [hres] at hfind
    exact ⟨k, rfl, hfind.2⟩
  | none =>
    rw [hres] at hfind
    obtain ⟨k, hk, hbit⟩ := Bitmap.count_pos_iff.mp hpos
    exact absurd (hfind k (Nat.zero_le _) hk) (by simp [hbit])

/-- **Taking an object**: a free slot of the first slab is used. -/
theorem slabTakeObject_spec (h : s.Describes R part full) (hi : i < numCaches) (hl : part i = a :: l) :
    ∃ s' part' full' k, slabTakeObject i s = (s', objectAddr i a k) ∧ k < (slabCapacity i).toNat ∧
      (s.header a).freeBitmap.test k = true ∧ s.SetsBit s' R part full part' full' a k false := by
  have hpart : a ∈ part i := by simp [hl]
  have ha := h.holds i hi a (List.mem_append_left _ hpart)
  have hslab : (s.caches i).partialSlabs = a := by
    have hlinked := h.partial_linked i hi
    rw [hl] at hlinked
    exact hlinked.1
  obtain ⟨k, hfind, hk, hbit⟩ := h.findsFree hi hpart
  -- the state after the two writes
  set s₁ := (s.modify a fun h =>
    { h with freeBitmap := bitmapClearBit h.freeBitmap (BitVec.ofNat 32 k) }).modify a
      fun h => { h with freeCount := h.freeCount - 1#32 } with hs₁
  have hf : s.FlipsBit s₁ R part full a k false := h.clearBit hi (List.mem_append_left _ hpart) hk hbit
  have hres : slabTakeObject i s =
      (if (s₁.header a).freeCount = 0#32 then slabMoveToFull i a s₁ else s₁, objectAddr i a k) := by
    have hobj : (s₁.header a).objSize = cacheSize i := by
      rw [hs₁]
      simp [ha.objSize]
    simp only [slabTakeObject, hslab, ha.capacity, hfind]
    rw [← hs₁, hobj]
    rfl
  by_cases hlast : (s₁.header a).freeCount = 0#32
  · rw [if_pos hlast] at hres
    exact ⟨_, _, _, k, hres, hk, hbit, hf.moveToFull h hi hl hlast⟩
  · rw [if_neg hlast] at hres
    exact ⟨_, part, full, k, hres, hk, hbit, hf.stays h hi hpart hlast⟩

/-- **Returning an object**: its slot is free again. -/
theorem heapSlabFree_spec (h : s.Describes R part full) (hi : i < numCaches)
    (hmem : a ∈ part i ++ full i) (hk : k < (slabCapacity i).toNat)
    (hbit : (s.header a).freeBitmap.test k = false) :
    ∃ s' part' full', heapSlabFree (objectAddr i a k) s = some s' ∧
      s.SetsBit s' R part full part' full' a k true := by
  obtain ⟨-, -, -, hcap, -⟩ := slabCapacity_spec i hi
  have ha := h.holds i hi a hmem
  have hpage := (h.mem_page hi hmem).1
  have hslot := objectAddr_slot hi hpage hk
  set slot := (objectAddr i a k - a - slabHdrSize) / cacheSize i with hslotdef
  set s₁ := (s.modify a fun h => { h with freeBitmap := bitmapSetBit h.freeBitmap slot }).modify a
    fun h => { h with freeCount := h.freeCount + 1#32 } with hs₁
  have hf : s.FlipsBit s₁ R part full a k true := h.setBit hi hmem hslot hk hbit
  -- the checks of the pointer pass, and what remains is the move of a slab that was full
  have hres : heapSlabFree (objectAddr i a k) s =
      if (s.header a).freeCount = 0#32 then slabMoveToPartial a s₁ else some s₁ := by
    have hvalid : ¬ slot ≥ slabCapacity i := by
      rw [ge_iff_le, BitVec.le_def, hslot]
      omega
    unfold heapSlabFree
    simp only [if_neg (objectAddr_aligned hi hpage hk).2, objectAddr_page hi hpage hk, ha.objSize,
      ha.capacity, ← hslotdef, if_neg hvalid, ← hs₁]
  have hfree : (s₁.header a).freeCount ≠ 0#32 := by
    have hle : (s.header a).freeCount.toNat ≤ 128 := by
      rw [ha.freeCount]
      exact (Nat.count_le _).trans hcap
    have hplus : (s₁.header a).freeCount = (s.header a).freeCount + 1#32 := by
      rw [hs₁]
      simp
    rw [hplus]
    bv_omega
  by_cases hfull : (s.header a).freeCount = 0#32
  · rw [if_pos hfull] at hres
    have hafull : a ∈ full i := by
      rcases List.mem_append.mp hmem with hpart | hfull'
      exacts [absurd hfull (h.partial_pos i hi a hpart), hfull']
    obtain ⟨l₁, l₂, hl⟩ := List.append_of_mem hafull
    obtain ⟨s₂, hs₂, hsets⟩ := hf.moveToPartial h hi hl hfree
    exact ⟨s₂, _, _, hres.trans hs₂, hsets⟩
  · rw [if_neg hfull] at hres
    have hpart : a ∈ part i := by
      rcases List.mem_append.mp hmem with hpart | hfull'
      exacts [hpart, absurd (h.full_zero i hi a hfull') hfull]
    exact ⟨s₁, part, full, hres, hf.stays h hi hpart hfree⟩

end Bit

end Slabs

end Microkernel.Heap
