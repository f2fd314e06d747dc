import Microkernel.Pmm.Bitmap
import Mathlib.Data.Nat.Count

/-! # One region of the bitmap allocator

The bits of a region, its counter, the search for a zero bit, and how page numbers and addresses
correspond; the updates of one page in these terms.

* **`Sound`** — the counter is the number of the zero bits, and the bits behind the last page are ones, so
  that the search by bytes does not find them.
* **`Shape`** — what the layout code says of a new region: whole pages, and room for the bits in its
  bitmap.
* **`Sound.findFreeIndex`** — the search finds the first zero bit when there is one.
* **`Fits`** — the region ends in the address space; then the address of a page is the sum.
-/

namespace Microkernel.Pmm.BitmapRegion

variable {r : BitmapRegion}

/-! ### Bits -/

/-- Byte and mask of the source are the word and the bit in it. -/
theorem bitmapTest_eq (r : BitmapRegion) (i : ℕ) : r.bitmapTest i = r.bitmap.test i := by
  have hbyte : i >>> 3 = i / 8 := Nat.shiftRight_eq_div_pow i 3
  have hmask : i &&& 7 = i % 8 := Nat.and_two_pow_sub_one_eq_mod i 3
  rw [Bool.eq_iff_iff, bitmapTest, hbyte, hmask, decide_eq_true_iff]
  exact Bitmap.and_mask_ne_zero (Nat.mod_lt _ (by decide))

/-- `bitmap_set` writes the byte that holds the bit. -/
theorem bitmapSet_bitmap (r : BitmapRegion) (i : ℕ) : (r.bitmapSet i).bitmap = r.bitmap.set i := by
  have hbyte : i >>> 3 = i / 8 := Nat.shiftRight_eq_div_pow i 3
  have hmask : i &&& 7 = i % 8 := Nat.and_two_pow_sub_one_eq_mod i 3
  simp only [bitmapSet, hbyte, hmask]
  rfl

/-- `bitmap_clear` writes the byte that holds the bit. -/
theorem bitmapClear_bitmap (r : BitmapRegion) (i : ℕ) :
    (r.bitmapClear i).bitmap = r.bitmap.clear i := by
  have hbyte : i >>> 3 = i / 8 := Nat.shiftRight_eq_div_pow i 3
  have hmask : i &&& 7 = i % 8 := Nat.and_two_pow_sub_one_eq_mod i 3
  simp only [bitmapClear, hbyte, hmask]
  rfl

/-- Setting a bit sets this bit alone. -/
theorem bitmapTest_bitmapSet (r : BitmapRegion) (i j : ℕ) :
    (r.bitmapSet i).bitmapTest j = (r.bitmapTest j || decide (j = i)) := by
  rw [bitmapTest_eq, bitmapTest_eq, bitmapSet_bitmap, Bitmap.test_set (by decide)]

/-- Clearing a bit clears this bit alone. -/
theorem bitmapTest_bitmapClear (r : BitmapRegion) (i j : ℕ) :
    (r.bitmapClear i).bitmapTest j = (r.bitmapTest j && !decide (j = i)) := by
  rw [bitmapTest_eq, bitmapTest_eq, bitmapClear_bitmap, Bitmap.test_clear (by decide)]

/-! ### What stays -/

/-- Two states of one region: everything but the bits and the counter is the same. -/
structure SameRegion (r r' : BitmapRegion) : Prop where
  base : r'.base = r.base
  pages : r'.pages = r.pages
  bitmapBytes : r'.bitmapBytes = r.bitmapBytes
  bitmapStorageBytes : r'.bitmapStorageBytes = r.bitmapStorageBytes
  bitmapPages : r'.bitmapPages = r.bitmapPages

theorem SameRegion.refl (r : BitmapRegion) : SameRegion r r := ⟨rfl, rfl, rfl, rfl, rfl⟩

/-- Two operations in turn that keep the description of a region keep it. -/
theorem SameRegion.trans {r₁ r₂ r₃ : BitmapRegion} (h : SameRegion r₁ r₂) (h' : SameRegion r₂ r₃) :
    SameRegion r₁ r₃ :=
  ⟨h'.base.trans h.base, h'.pages.trans h.pages, h'.bitmapBytes.trans h.bitmapBytes,
    h'.bitmapStorageBytes.trans h.bitmapStorageBytes, h'.bitmapPages.trans h.bitmapPages⟩

/-- Keeping the description goes both ways. -/
theorem SameRegion.symm {r' : BitmapRegion} (h : SameRegion r r') : SameRegion r' r :=
  ⟨h.base.symm, h.pages.symm, h.bitmapBytes.symm, h.bitmapStorageBytes.symm, h.bitmapPages.symm⟩

/-- The same addresses are in it. -/
theorem SameRegion.containsAddr {r' : BitmapRegion} (h : SameRegion r r') (a : U32) :
    r'.containsAddr a = r.containsAddr a := by
  rw [BitmapRegion.containsAddr, BitmapRegion.containsAddr, h.base, h.pages]

/-- A region whose page `i` is now used. -/
def take (r : BitmapRegion) (i : ℕ) : BitmapRegion := { r.bitmapSet i with free := r.free - 1#32 }

/-- A region whose page `i` is now free. -/
def give (r : BitmapRegion) (i : ℕ) : BitmapRegion := { r.bitmapClear i with free := r.free + 1#32 }

theorem take_same (r : BitmapRegion) (i : ℕ) : SameRegion r (r.take i) := ⟨rfl, rfl, rfl, rfl, rfl⟩

theorem give_same (r : BitmapRegion) (i : ℕ) : SameRegion r (r.give i) := ⟨rfl, rfl, rfl, rfl, rfl⟩

/-- Taking page `i` sets its bit and no other. -/
@[simp] theorem bitmapTest_take (r : BitmapRegion) (i j : ℕ) :
    (r.take i).bitmapTest j = (r.bitmapTest j || decide (j = i)) :=
  r.bitmapTest_bitmapSet i j

/-- Giving page `i` back clears its bit and no other. -/
@[simp] theorem bitmapTest_give (r : BitmapRegion) (i j : ℕ) :
    (r.give i).bitmapTest j = (r.bitmapTest j && !decide (j = i)) :=
  r.bitmapTest_bitmapClear i j

/-! ### Counters -/

/-- The number of zero bits among the pages. -/
def zeroBits (r : BitmapRegion) : ℕ := Nat.count (fun i => r.bitmapTest i = false) r.pages.toNat

/-- The shape of a region that the layout code makes. -/
structure Shape (r : BitmapRegion) : Prop where
  pages_pos : 0 < r.pages.toNat
  pages_lt : r.pages.toNat < 2 ^ 20
  bytes : r.bitmapBytes.toNat = (r.pages.toNat + 7) / 8
  aligned : r.base.PageAligned

/-- **The counter of a region is the number of its zero bits**, and the bits of the last byte past the
last page are ones. -/
structure Sound (r : BitmapRegion) : Prop extends Shape r where
  free : r.free.toNat = r.zeroBits
  tail : ∀ i, r.pages.toNat ≤ i → i < 8 * r.bitmapBytes.toNat → r.bitmapTest i = true

/-- The shape is a matter of the description. -/
theorem Shape.of_same {r' : BitmapRegion} (h : r.Shape) (hsame : SameRegion r r') : r'.Shape := by
  constructor
  · rw [hsame.pages]
    exact h.pages_pos
  · rw [hsame.pages]
    exact h.pages_lt
  · rw [hsame.bitmapBytes, hsame.pages]
    exact h.bytes
  · rw [hsame.base]
    exact h.aligned

/-- No more zero bits than pages. -/
theorem zeroBits_le (r : BitmapRegion) : r.zeroBits ≤ r.pages.toNat := Nat.count_le _

/-- The counter is not zero exactly when some page is free. -/
theorem Sound.free_pos_iff (h : r.Sound) :
    r.free ≠ 0#32 ↔ ∃ i < r.pages.toNat, r.bitmapTest i = false := by
  rw [← Bitmap.count_pos_iff, ← zeroBits, ← h.free, Nat.pos_iff_ne_zero, ← not_iff_not, not_not, not_not,
    ← BitVec.toNat_inj]
  rfl

/-- Taking a free page. -/
theorem Sound.take (h : r.Sound) {i : ℕ} (hi : i < r.pages.toNat) (hfree : r.bitmapTest i = false) :
    (r.take i).Sound ∧ (r.take i).free.toNat + 1 = r.free.toNat := by
  have hcount : r.zeroBits = (r.take i).zeroBits + 1 := by
    refine Bitmap.count_flip (p := fun j => (r.take i).bitmapTest j = false) hi (by simp) hfree ?_
    intro j hj
    simp [hj]
  have hsub : (r.take i).free.toNat + 1 = r.free.toNat := by
    have hnum := h.free
    show (r.free - 1#32).toNat + 1 = _
    bv_omega
  refine ⟨⟨h.toShape.of_same (r.take_same i), ?_, ?_⟩, hsub⟩
  · have hnum := h.free
    omega
  · intro j hj hj'
    rw [bitmapTest_take, h.tail j hj hj', Bool.true_or]

/-- Giving a used page back. -/
theorem Sound.give (h : r.Sound) {i : ℕ} (hi : i < r.pages.toNat) (hused : r.bitmapTest i = true) :
    (r.give i).Sound ∧ (r.give i).free.toNat = r.free.toNat + 1 := by
  have hcount : (r.give i).zeroBits = r.zeroBits + 1 := by
    refine Bitmap.count_flip (q := fun j => (r.give i).bitmapTest j = false) hi ?_ (by simp) ?_
    · simp [hused]
    · intro j hj
      simp [hj]
  have hle := r.zeroBits_le
  have hlt := h.pages_lt
  have hadd : (r.give i).free.toNat = r.free.toNat + 1 := by
    have hnum := h.free
    show (r.free + 1#32).toNat = _
    bv_omega
  refine ⟨⟨h.toShape.of_same (r.give_same i), ?_, ?_⟩, hadd⟩
  · have hnum := h.free
    omega
  · intro j hj hj'
    have hne : j ≠ i := by
      rw [(r.give_same i).pages] at hj
      omega
    rw [bitmapTest_give, h.tail j hj hj']
    simp [hne]

/-- The loop of `pmm_resync_free_count` counts the zero bits. -/
theorem countFree_toNat (r : BitmapRegion) {n : ℕ} (hn : n < 2 ^ 32) :
    (r.countFree n).toNat = Nat.count (fun i => r.bitmapTest i = false) n := by
  induction n with
  | zero => rfl
  | succ n ih =>
    have hrec := ih (by omega)
    have hle : Nat.count (fun i => r.bitmapTest i = false) n ≤ n := Nat.count_le _
    rw [countFree, Nat.count_succ]
    cases hbit : r.bitmapTest n
    · rw [if_neg (by simp), if_pos rfl, BitVec.toNat_add, hrec]
      exact Nat.mod_eq_of_lt (by
        show _ + 1 < _
        omega)
    · rw [if_pos rfl, if_neg (by simp), hrec, Nat.add_zero]

/-- Counting the zero bits again gives the counter. -/
theorem Sound.countFree (h : r.Sound) : r.countFree r.pages.toNat = r.free := by
  apply BitVec.eq_of_toNat_eq
  rw [r.countFree_toNat r.pages.isLt, h.free]
  rfl

/-! ### The search -/

/-- A bit found in a byte is a page of the region, and free. -/
theorem findFreeBit_some {byte n bit idx : ℕ} (h : r.findFreeBit byte n bit = some idx) :
    idx < r.pages.toNat ∧ r.bitmapTest idx = false := by
  induction n generalizing bit with
  | zero => cases h
  | succ n ih =>
    rw [findFreeBit] at h
    by_cases hend : (byte <<< 3) + bit ≥ r.pages.toNat
    · rw [if_pos hend] at h
      cases h
    rw [if_neg hend] at h
    by_cases hbit : r.bitmapTest ((byte <<< 3) + bit) = true
    · rw [if_pos hbit] at h
      exact ih h
    · rw [if_neg hbit] at h
      obtain rfl := Option.some.inj h
      exact ⟨by omega, by simpa using hbit⟩

/-- A byte without a free bit has every page of the region in it taken. -/
theorem findFreeBit_none {byte n bit : ℕ} (h : r.findFreeBit byte n bit = none) {k : ℕ} (hk : bit ≤ k)
    (hk' : k < bit + n) (hlt : 8 * byte + k < r.pages.toNat) : r.bitmapTest (8 * byte + k) = true := by
  have hbase : byte <<< 3 = 8 * byte := by rw [Nat.shiftLeft_eq, Nat.mul_comm]
  induction n generalizing bit with
  | zero => omega
  | succ n ih =>
    rw [findFreeBit, hbase, if_neg (by omega)] at h
    by_cases hbit : r.bitmapTest (8 * byte + bit) = true
    · rw [if_pos hbit] at h
      rcases Nat.eq_or_lt_of_le hk with rfl | hk
      · exact hbit
      · exact ih h hk (by omega)
    · rw [if_neg hbit] at h
      cases h

/-- A bit found is a page of the region, and free. -/
theorem findFreeByte_some {n byte idx : ℕ} (h : r.findFreeByte n byte = some idx) :
    idx < r.pages.toNat ∧ r.bitmapTest idx = false := by
  induction n generalizing byte with
  | zero => cases h
  | succ n ih =>
    rw [findFreeByte] at h
    by_cases hfull : r.bitmap byte = 0xFF#8
    · rw [if_pos hfull] at h
      exact ih h
    · rw [if_neg hfull, Option.or_eq_some_iff] at h
      rcases h with h | ⟨-, h⟩
      · exact findFreeBit_some h
      · exact ih h

/-- Bytes without a free bit have every page of the region in them taken. -/
theorem findFreeByte_none {n byte : ℕ} (h : r.findFreeByte n byte = none) {i : ℕ} (hi : 8 * byte ≤ i)
    (hi' : i < 8 * (byte + n)) (hlt : i < r.pages.toNat) : r.bitmapTest i = true := by
  induction n generalizing byte with
  | zero => omega
  | succ n ih =>
    -- the bits of this byte, and the bytes behind it
    have hsplit : (∀ k < 8, i = 8 * byte + k → r.bitmapTest i = true) ∧
        r.findFreeByte n (byte + 1) = none := by
      rw [findFreeByte] at h
      by_cases hfull : r.bitmap byte = 0xFF#8
      · rw [if_pos hfull] at h
        refine ⟨fun k hk hik => ?_, h⟩
        rw [hik, bitmapTest_eq, Nat.mul_comm]
        exact (Bitmap.word_eq_allOnes_iff r.bitmap byte).mp hfull k hk
      · rw [if_neg hfull, Option.or_eq_none_iff] at h
        refine ⟨fun k hk hik => ?_, h.2⟩
        rw [hik] at hlt ⊢
        exact findFreeBit_none h.1 (Nat.zero_le k) (by omega) hlt
    by_cases hbyte : i < 8 * (byte + 1)
    · exact hsplit.1 (i - 8 * byte) (by omega) (by omega)
    · exact ih hsplit.2 (by omega) (by omega)

/-- The bit found in a byte is the first one. -/
theorem findFreeBit_least {byte n bit idx : ℕ} (h : r.findFreeBit byte n bit = some idx) {k : ℕ}
    (hk : bit ≤ k) (hlt : 8 * byte + k < idx) : r.bitmapTest (8 * byte + k) = true := by
  have hbase : byte <<< 3 = 8 * byte := by rw [Nat.shiftLeft_eq, Nat.mul_comm]
  induction n generalizing bit with
  | zero => cases h
  | succ n ih =>
    rw [findFreeBit, hbase] at h
    by_cases hend : 8 * byte + bit ≥ r.pages.toNat
    · rw [if_pos hend] at h
      cases h
    rw [if_neg hend] at h
    by_cases hbit : r.bitmapTest (8 * byte + bit) = true
    · rw [if_pos hbit] at h
      rcases Nat.eq_or_lt_of_le hk with rfl | hk
      · exact hbit
      · exact ih h hk
    · rw [if_neg hbit] at h
      obtain rfl := Option.some.inj h
      omega

/-- The bit found is the first one of the bytes searched. -/
theorem findFreeByte_least {n byte idx : ℕ} (h : r.findFreeByte n byte = some idx) {j : ℕ}
    (hj : 8 * byte ≤ j) (hlt : j < idx) : r.bitmapTest j = true := by
  induction n generalizing byte with
  | zero => cases h
  | succ n ih =>
    rw [findFreeByte] at h
    by_cases hfull : r.bitmap byte = 0xFF#8
    · rw [if_pos hfull] at h
      by_cases hbyte : j < 8 * (byte + 1)
      · rw [show j = byte * 8 + (j - 8 * byte) by omega, bitmapTest_eq]
        exact (Bitmap.word_eq_allOnes_iff r.bitmap byte).mp hfull _ (by omega)
      · exact ih h (by omega)
    rw [if_neg hfull, Option.or_eq_some_iff] at h
    rcases h with h | ⟨hnone, h⟩
    · have hk := findFreeBit_least h (Nat.zero_le (j - 8 * byte)) (by omega)
      rwa [Nat.add_sub_cancel' hj] at hk
    · by_cases hbyte : j < 8 * (byte + 1)
      · have hpages := (findFreeByte_some h).1
        have hk := findFreeBit_none hnone (Nat.zero_le (j - 8 * byte)) (by omega) (by omega)
        rwa [Nat.add_sub_cancel' hj] at hk
      · exact ih h (by omega)

/-- The search finds the first zero bit. -/
theorem findFreeIndex_least {idx j : ℕ} (h : r.findFreeIndex = some idx) (hj : j < idx) :
    r.bitmapTest j = true :=
  findFreeByte_least h (Nat.zero_le j) hj

/-- **The search finds a zero bit of a page when there is one.** -/
theorem Sound.findFreeIndex (h : r.Sound) (hfree : r.free ≠ 0#32) :
    ∃ i, r.findFreeIndex = some i ∧ i < r.pages.toNat ∧ r.bitmapTest i = false := by
  obtain ⟨i, hi, hzero⟩ := h.free_pos_iff.mp hfree
  cases hfind : r.findFreeIndex with
  | some k => exact ⟨k, rfl, findFreeByte_some hfind⟩
  | none =>
    have hbytes := h.bytes
    have hone := findFreeByte_none hfind (Nat.zero_le i) (by omega) hi
    rw [hone] at hzero
    cases hzero

/-! ### Page numbers and addresses -/

/-- The address of a page, as the machine computes it. -/
theorem indexToAddr_toNat (r : BitmapRegion) {i : ℕ} (hi : i < 2 ^ 20) :
    (r.indexToAddr i).toNat = (r.base.toNat + i * 4096) % 2 ^ 32 := by
  rw [indexToAddr, BitVec.toNat_add, BitVec.toNat_mul, BitVec.toNat_ofNat, Nat.mod_eq_of_lt (a := i) (by omega),
    show pageSize.toNat = 4096 from rfl, Nat.add_mod_mod]

/-- Pages start at multiples of the page size. -/
theorem Shape.indexToAddr_aligned (h : r.Shape) {i : ℕ} (hi : i < r.pages.toNat) :
    (r.indexToAddr i).PageAligned := by
  have hbase := (U32.pageAligned_iff _).mp h.aligned
  have hlt := h.pages_lt
  rw [U32.pageAligned_iff, r.indexToAddr_toNat (by omega)]
  omega

/-- Different pages of a region have different addresses. -/
theorem Shape.indexToAddr_inj (h : r.Shape) {i j : ℕ} (hi : i < r.pages.toNat) (hj : j < r.pages.toNat)
    (heq : r.indexToAddr i = r.indexToAddr j) : i = j := by
  have hlt := h.pages_lt
  have hnum := congrArg BitVec.toNat heq
  rw [r.indexToAddr_toNat (by omega), r.indexToAddr_toNat (by omega)] at hnum
  have hbase := r.base.isLt
  omega

/-- The pages of the region end in the address space. -/
def Fits (r : BitmapRegion) : Prop := r.base.toNat + r.pages.toNat * 4096 < 2 ^ 32

/-- In a region that does not wrap the address is the sum. -/
theorem Fits.indexToAddr (h : r.Fits) {i : ℕ} (hi : i < r.pages.toNat) :
    (r.indexToAddr i).toNat = r.base.toNat + i * 4096 := by
  have hmul : i * 4096 ≤ r.pages.toNat * 4096 := Nat.mul_le_mul_right _ hi.le
  have hlt : r.base.toNat + i * 4096 < 2 ^ 32 := lt_of_le_of_lt (Nat.add_le_add_left hmul _) h
  have hi' : i < 2 ^ 20 := by
    unfold Fits at h
    omega
  rw [r.indexToAddr_toNat hi']
  exact Nat.mod_eq_of_lt hlt

/-- `region_contains_addr` holds of nothing when the end of the region wraps around. -/
theorem Shape.containsAddr_iff (h : r.Shape) (a : U32) :
    r.containsAddr a = true ↔
      r.Fits ∧ r.base.toNat ≤ a.toNat ∧ a.toNat < r.base.toNat + r.pages.toNat * 4096 := by
  have hpos := h.pages_pos
  have hlt := h.pages_lt
  have hne : r.pages ≠ 0#32 := by
    rintro hzero
    rw [hzero] at hpos
    exact absurd hpos (by decide)
  have hstop : (r.base + r.pages * pageSize).toNat = (r.base.toNat + r.pages.toNat * 4096) % 2 ^ 32 := by
    rw [BitVec.toNat_add, BitVec.toNat_mul, show pageSize.toNat = 4096 from rfl, Nat.add_mod_mod]
  have hbase := r.base.isLt
  unfold Fits
  rw [containsAddr, if_neg hne, decide_eq_true_iff, BitVec.le_def, BitVec.lt_def, hstop]
  omega

/-- The page of an address in the region. -/
theorem Shape.addrToIndex (h : r.Shape) {a : U32} (ha : a.PageAligned)
    (hcontains : r.containsAddr a = true) :
    r.addrToIndex a < r.pages.toNat ∧ r.indexToAddr (r.addrToIndex a) = a := by
  obtain ⟨hfits, hle, hlt⟩ := (h.containsAddr_iff a).mp hcontains
  have hbase := (U32.pageAligned_iff _).mp h.aligned
  rw [U32.pageAligned_iff] at ha
  have hidx : r.addrToIndex a = (a.toNat - r.base.toNat) / 4096 := by
    rw [BitmapRegion.addrToIndex, BitVec.toNat_udiv, BitVec.toNat_sub_of_le (by rw [BitVec.le_def]; omega)]
    rfl
  have hlt' : r.addrToIndex a < r.pages.toNat := by omega
  refine ⟨hlt', BitVec.eq_of_toNat_eq ?_⟩
  rw [hfits.indexToAddr hlt', hidx]
  omega

/-- The addresses of the pages of a region that does not wrap are in it. -/
theorem Shape.containsAddr_indexToAddr (h : r.Shape) (hfits : r.Fits) {i : ℕ} (hi : i < r.pages.toNat) :
    r.containsAddr (r.indexToAddr i) = true := by
  rw [h.containsAddr_iff, hfits.indexToAddr hi]
  exact ⟨hfits, by omega, by omega⟩

/-! ### One page -/

/-- `bitmap_mark_used_by_addr` on the region that has the page. -/
theorem Sound.markUsed (h : r.Sound) {a : U32} (ha : a.PageAligned) (hcontains : r.containsAddr a = true)
    {t : U32} (ht : r.free.toNat ≤ t.toNat) :
    r.markUsed a t =
      if r.bitmapTest (r.addrToIndex a) then (r, t) else (r.take (r.addrToIndex a), t - 1#32) := by
  obtain ⟨hi, -⟩ := h.toShape.addrToIndex ha hcontains
  rw [BitmapRegion.markUsed]
  dsimp only
  rw [if_neg (by omega)]
  by_cases hbit : r.bitmapTest (r.addrToIndex a) = true
  · rw [if_pos hbit, if_pos hbit]
  · rw [if_neg hbit, if_neg hbit]
    -- the page is free, so both counters are positive
    have hpos : r.free ≠ 0#32 := h.free_pos_iff.mpr ⟨_, hi, by simpa using hbit⟩
    have hr : (r.bitmapSet (r.addrToIndex a)).free > 0#32 := by
      show r.free > 0#32
      bv_omega
    rw [if_pos hr, if_pos (by bv_omega)]
    rfl

/-- `pmm_bitmap_free_page` on the region that has the page. -/
theorem Shape.release (h : r.Shape) {a : U32} (ha : a.PageAligned) (hcontains : r.containsAddr a = true)
    (t : U32) :
    r.release a t =
      if r.bitmapTest (r.addrToIndex a) then (r.give (r.addrToIndex a), t + 1#32) else (r, t) := by
  obtain ⟨hi, -⟩ := h.addrToIndex ha hcontains
  rw [BitmapRegion.release]
  dsimp only
  rw [if_neg (by omega)]
  rfl

end Microkernel.Pmm.BitmapRegion
