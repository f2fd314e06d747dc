import Microkernel.Heap.Slab

/-! # Objects in a slab

The bitmap operations of the slab heap as operations on sets of slots, and the addresses of the
objects of a slab: they are aligned, stay behind the header and inside the page, do not overlap, and
the page and the slot can be read off the pointer.

* **`FirstSet`** — what the search for a set bit finds, over the words of the bitmap and its last, partial
  word.
* **`objectAddr`** — the address of a slot; that different slots, or slots of different slabs, never
  overlap is arithmetic on the seven sizes.
-/

namespace Microkernel.Heap

open Function (update)

/-! ### The bitmap -/

section Bitmap
variable {bm : Bitmap 32} {bits : ℕ}

/-- `bitmap_set_bit` sets the bit of the abstract bitmap. -/
theorem bitmapSetBit_eq (bm : Bitmap 32) (idx : U32) : bitmapSetBit bm idx = bm.set idx.toNat := by
  unfold bitmapSetBit Bitmap.set
  rw [BitVec.toNat_udiv, BitVec.toNat_umod]
  rfl

/-- `bitmap_clear_bit` clears it. -/
theorem bitmapClearBit_eq (bm : Bitmap 32) (idx : U32) :
    bitmapClearBit bm idx = bm.clear idx.toNat := by
  unfold bitmapClearBit Bitmap.clear
  rw [BitVec.toNat_udiv, BitVec.toNat_umod]
  rfl

/-- The bits that are set after the last loop of `slab_create`. -/
theorem test_bitmapSetFirst (bm : Bitmap 32) {n : ℕ} (hn : n ≤ 128) (j : ℕ) :
    (bitmapSetFirst bm n).test j = (bm.test j || decide (j < n)) := by
  induction n with
  | zero => simp [bitmapSetFirst]
  | succ n ih =>
    have hmod : n % 2 ^ 32 = n := Nat.mod_eq_of_lt (by omega)
    rw [bitmapSetFirst, bitmapSetBit_eq, Bitmap.test_set (by decide), ih (by omega),
      BitVec.toNat_ofNat, hmod, Bool.or_assoc, ← Bool.decide_or]
    congr 2
    simp only [eq_iff_iff]
    omega

/-- `r` is the first set bit from `lo` on below `bits`, or says that there is none. -/
def FirstSet (bm : Bitmap 32) (lo bits : ℕ) : Option ℕ → Prop
  | some i => lo ≤ i ∧ i < bits ∧ bm.test i = true
  | none => ∀ j, lo ≤ j → j < bits → bm.test j = false

/-- The inner loop finds the first set bit of the word, or nothing. -/
theorem bitmapScanWord_spec {w b n : ℕ} (hn : b + n = 32) :
    match bitmapScanWord bm bits w (List.range' b n) with
    | some r => FirstSet bm (w * 32 + b) bits r
    | none => ∀ j, w * 32 + b ≤ j → j < w * 32 + 32 → bm.test j = false := by
  induction n generalizing b with
  | zero =>
    intro j h₁ h₂
    omega
  | succ n ih =>
    rw [List.range'_succ, bitmapScanWord]
    by_cases hbits : w * 32 + b ≥ bits
    · rw [if_pos hbits]
      intro j h₁ h₂
      omega
    rw [if_neg hbits]
    have hmask := Bitmap.and_mask_ne_zero (x := bm w) (k := b) (by omega)
    rw [← Bitmap.test_word bm (by omega)] at hmask
    by_cases hbit : bm.test (w * 32 + b) = true
    · rw [if_pos (hmask.mpr hbit)]
      exact ⟨le_rfl, by omega, hbit⟩
    · rw [if_neg fun h => hbit (hmask.mp h)]
      have hskip : ∀ j, w * 32 + b ≤ j → w * 32 + (b + 1) ≤ j ∨ bm.test j = false := by
        intro j hj
        rcases Nat.eq_or_lt_of_le hj with rfl | hj
        · exact .inr (by simpa using hbit)
        · exact .inl hj
      have hrest := ih (b := b + 1) (by omega)
      -- `some none` is the early return of the scan at the end of the bitmap
      cases hres : bitmapScanWord bm bits w (List.range' (b + 1) n) with
      | none =>
        rw [hres] at hrest
        intro j h₁ h₂
        rcases hskip j h₁ with h | h
        exacts [hrest j h h₂, h]
      | some r =>
        rw [hres] at hrest
        cases r with
        | none =>
          intro j h₁ h₂
          rcases hskip j h₁ with h | h
          exacts [hrest j h h₂, h]
        | some i => exact ⟨by have := hrest.1; omega, hrest.2⟩

/-- The outer loop finds the first set bit. -/
theorem bitmapScanWords_spec {w n : ℕ} (hbits : bits ≤ (w + n) * 32) :
    FirstSet bm (w * 32) bits (bitmapScanWords bm bits (List.range' w n)) := by
  induction n generalizing w with
  | zero =>
    intro j h₁ h₂
    omega
  | succ n ih =>
    rw [List.range'_succ, bitmapScanWords]
    -- when this word has no set bit below the bound, the search goes on behind it
    have hnext : (∀ j, w * 32 ≤ j → j < w * 32 + 32 → bm.test j = false) →
        FirstSet bm (w * 32) bits (bitmapScanWords bm bits (List.range' (w + 1) n)) := by
      intro hzero
      have hrest := ih (w := w + 1) (by omega)
      cases hres : bitmapScanWords bm bits (List.range' (w + 1) n) with
      | none =>
        rw [hres] at hrest
        intro j h₁ h₂
        by_cases h : j < w * 32 + 32
        · exact hzero j h₁ h
        · exact hrest j (by omega) h₂
      | some i =>
        rw [hres] at hrest
        exact ⟨by have := hrest.1; omega, hrest.2⟩
    by_cases hword : bm w = 0#32
    · rw [if_pos hword]
      refine hnext fun j h₁ h₂ => ?_
      have := (Bitmap.word_eq_zero_iff bm w).mp hword (j - w * 32) (by omega)
      rwa [Nat.add_sub_cancel' h₁] at this
    · rw [if_neg hword]
      have hscan := @bitmapScanWord_spec bm bits w 0 32 rfl
      rw [← List.range_eq_range'] at hscan
      cases hres : bitmapScanWord bm bits w (List.range 32) with
      | none =>
        rw [hres] at hscan
        exact hnext hscan
      | some r =>
        rw [hres] at hscan
        exact hscan

/-- `bitmap_find_first_set` finds a set bit when there is one. -/
theorem bitmapFindFirstSet_spec (bm : Bitmap 32) {bits : U32} (hbits : bits.toNat ≤ 128) :
    FirstSet bm 0 bits.toNat (bitmapFindFirstSet bm bits) := by
  have hwords : ((bits + 31#32) / 32#32).toNat = (bits.toNat + 31) / 32 := by
    rw [BitVec.toNat_udiv, BitVec.toNat_add]
    have : (31#32).toNat = 31 := rfl
    rw [this, Nat.mod_eq_of_lt (by omega)]
    rfl
  unfold bitmapFindFirstSet
  rw [hwords, List.range_eq_range']
  have := @bitmapScanWords_spec bm bits.toNat 0 ((bits.toNat + 31) / 32) (by omega)
  rwa [Nat.zero_mul] at this

end Bitmap

/-! ### Object addresses -/

/-- How many objects a slab of a cache holds. -/
def slabCapacity (i : ℕ) : U32 := (vmmPageSize - slabHdrSize) / cacheSize i

/-- The address of an object: the page, the header, and the objects before it. -/
def objectAddr (i : ℕ) (slab : U32) (slot : ℕ) : U32 :=
  slab + slabHdrSize + BitVec.ofNat 32 slot * cacheSize i

/-- The header and the objects of a slab fit into the page and into the bitmap. -/
theorem slabCapacity_spec : ∀ i < numCaches,
    0 < (cacheSize i).toNat ∧ 8 ∣ (cacheSize i).toNat ∧ 0 < (slabCapacity i).toNat ∧
      (slabCapacity i).toNat ≤ 128 ∧
      40 + (slabCapacity i).toNat * (cacheSize i).toNat ≤ 4096 := by decide

section Objects
variable {i k l : ℕ} {slab : U32}

/-- An object ends inside the page. -/
theorem object_end_le (hi : i < numCaches) (hk : k < (slabCapacity i).toNat) :
    40 + k * (cacheSize i).toNat + (cacheSize i).toNat ≤ 4096 := by
  obtain ⟨-, -, -, -, hcap⟩ := slabCapacity_spec i hi
  have hmul := Nat.mul_le_mul_right (cacheSize i).toNat (Nat.succ_le_of_lt hk)
  rw [Nat.succ_mul] at hmul
  omega

/-- Object addresses do not wrap around. -/
theorem objectAddr_toNat (hi : i < numCaches) (ha : slab.PageAligned)
    (hk : k < (slabCapacity i).toNat) :
    (objectAddr i slab k).toNat = slab.toNat + 40 + k * (cacheSize i).toNat := by
  have hend := object_end_le hi hk
  obtain ⟨hpos, -, -, hcap, -⟩ := slabCapacity_spec i hi
  have hpage := (U32.pageAligned_iff slab).mp ha
  have hlt := slab.isLt
  have hk' : (BitVec.ofNat 32 k).toNat = k := by
    rw [BitVec.toNat_ofNat, Nat.mod_eq_of_lt (by omega)]
  unfold objectAddr
  rw [BitVec.toNat_add, BitVec.toNat_add, BitVec.toNat_mul, hk', show slabHdrSize.toNat = 40 from rfl]
  generalize k * (cacheSize i).toNat = m at *
  omega

/-- The page of an object. -/
theorem objectAddr_page (hi : i < numCaches) (ha : slab.PageAligned)
    (hk : k < (slabCapacity i).toNat) :
    objectAddr i slab k &&& ~~~ (vmmPageSize - 1#32) = slab := by
  have hend := object_end_le hi hk
  obtain ⟨hpos, -⟩ := slabCapacity_spec i hi
  have haddr := objectAddr_toNat hi ha hk
  have hpage := (U32.pageAligned_iff slab).mp ha
  have hmask := U32.toNat_and_not_low (objectAddr i slab k) 12 (by decide)
  apply BitVec.eq_of_toNat_eq
  rw [show vmmPageSize - 1#32 = BitVec.ofNat 32 (2 ^ 12 - 1) from rfl, hmask, haddr]
  omega

/-- The slot of an object. -/
theorem objectAddr_slot (hi : i < numCaches) (ha : slab.PageAligned)
    (hk : k < (slabCapacity i).toNat) :
    ((objectAddr i slab k - slab - slabHdrSize) / cacheSize i).toNat = k := by
  have haddr := objectAddr_toNat hi ha hk
  have hlt := (objectAddr i slab k).isLt
  obtain ⟨hpos, -⟩ := slabCapacity_spec i hi
  have hoffset : (objectAddr i slab k - slab - slabHdrSize).toNat = k * (cacheSize i).toNat := by
    unfold slabHdrSize
    bv_omega
  rw [BitVec.toNat_udiv, hoffset, Nat.mul_div_cancel _ hpos]

/-- Object addresses are multiples of 8, and not `NULL`. -/
theorem objectAddr_aligned (hi : i < numCaches) (ha : slab.PageAligned)
    (hk : k < (slabCapacity i).toNat) :
    8 ∣ (objectAddr i slab k).toNat ∧ objectAddr i slab k ≠ 0#32 := by
  have haddr := objectAddr_toNat hi ha hk
  have hpage := (U32.pageAligned_iff slab).mp ha
  obtain ⟨-, hdvd, -⟩ := slabCapacity_spec i hi
  have hmul := Dvd.dvd.mul_left hdvd k
  constructor
  · omega
  · intro h₀
    rw [h₀] at haddr
    change 0 = _ at haddr
    omega

/-- Objects of one slab at different slots do not overlap. -/
theorem objects_disjoint (hkl : k < l) :
    k * (cacheSize i).toNat + (cacheSize i).toNat ≤ l * (cacheSize i).toNat := by
  rw [← Nat.succ_mul]
  exact Nat.mul_le_mul_right _ hkl

end Objects

end Microkernel.Heap
