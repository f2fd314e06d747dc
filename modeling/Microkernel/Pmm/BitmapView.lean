import Microkernel.Pmm.BitmapMemory
import Microkernel.Pmm.BitmapOps

/-! # What the memory holds of the bitmaps

The allocator in physical memory against the allocator whose regions have bytes of their own. When each
bitmap is reached through its pointer and no two of them share a byte, the bytes of a region's storage
are all there is to know of the memory, and every call does on them what the other allocator's call does:

* **`PmmRegion.view`, `BitmapMemory.view`** — a region, and the statics, with the bytes of the storage.
* **`BitmapMemory.Reaches`** — the storage of every region ends at 1 GiB or below, where `PHYS_TO_VIRT`
  of it is shown, and the storages are disjoint.
* **`BitmapMemory.Steps`** — one call: what is seen afterwards, that the regions stay where they are,
  and that no other byte of memory has changed. `alloc_steps`, `free_steps` and `markUsedRange_steps`
  say it of the calls. -/

namespace Microkernel.Pmm

/-! ### The bytes of the storage -/

namespace BitmapRegion

/-- The region with the bytes of its storage alone. -/
def trim (r : BitmapRegion) : BitmapRegion :=
  { r with bitmap := fun k => if k < r.bitmapStorageBytes.toNat then r.bitmap k else 0#8 }

variable {r : BitmapRegion}

/-- The bytes of the bitmap are those of the region. -/
theorem trim_bitmap {k : ℕ} (hk : k < r.bitmapStorageBytes.toNat) : r.trim.bitmap k = r.bitmap k :=
  if_pos hk

/-- A bit of the storage. -/
theorem trim_bitmapTest {i : ℕ} (hi : i < 8 * r.bitmapStorageBytes.toNat) :
    r.trim.bitmapTest i = r.bitmapTest i := by
  have hbyte : i >>> 3 < r.bitmapStorageBytes.toNat := by
    rw [Nat.shiftRight_eq_div_pow]
    omega
  rw [bitmapTest, trim_bitmap hbyte]
  rfl

/-- Counting reads no byte past the bitmap. -/
theorem trim_countFree {n : ℕ} (hn : n ≤ 8 * r.bitmapStorageBytes.toNat) :
    r.trim.countFree n = r.countFree n := by
  induction n with
  | zero => rfl
  | succ n ih => rw [countFree, countFree, trim_bitmapTest (by omega), ih (by omega)]

/-- Searching a byte reads no byte past the bitmap. -/
theorem trim_findFreeBit (hpages : r.pages.toNat ≤ 8 * r.bitmapStorageBytes.toNat) (byte n bit : ℕ) :
    r.trim.findFreeBit byte n bit = r.findFreeBit byte n bit := by
  induction n generalizing bit with
  | zero => rfl
  | succ n ih =>
    rw [findFreeBit, findFreeBit]
    by_cases hend : (byte <<< 3) + bit ≥ r.pages.toNat
    · rw [if_pos hend]
      exact if_pos hend
    · rw [if_neg hend, trim_bitmapTest (by omega), ih]
      exact if_neg hend

/-- Nor does searching them all. -/
theorem trim_findFreeByte (hpages : r.pages.toNat ≤ 8 * r.bitmapStorageBytes.toNat) {n byte : ℕ}
    (hn : byte + n ≤ r.bitmapStorageBytes.toNat) :
    r.trim.findFreeByte n byte = r.findFreeByte n byte := by
  induction n generalizing byte with
  | zero => rfl
  | succ n ih =>
    rw [findFreeByte, findFreeByte, trim_bitmap (by omega), ih (by omega), trim_findFreeBit hpages]

/-- The search comes to bytes of the storage only. -/
theorem trim_findFreeIndex (hpages : r.pages.toNat ≤ 8 * r.bitmapStorageBytes.toNat)
    (hbytes : r.bitmapBytes.toNat ≤ r.bitmapStorageBytes.toNat) :
    r.trim.findFreeIndex = r.findFreeIndex :=
  trim_findFreeByte hpages ((Nat.zero_add _).le.trans hbytes)

end BitmapRegion

namespace PmmRegion

/-- The region with the bytes of its storage in memory. -/
def view (r : PmmRegion) (m : PhysicalMemory) : BitmapRegion := (r.read m).trim

/-- The physical address is one of the storage, which starts at page 0 of the region. -/
def Holds (r : PmmRegion) (a : U32) : Prop :=
  r.base.toNat ≤ a.toNat ∧ a.toNat < r.base.toNat + r.bitmapStorageBytes.toNat

/-- **The pointer of a region reaches its storage**: all of it lies below 1 GiB, and it has the bits of
all pages. -/
structure Reaches (r : PmmRegion) : Prop where
  bitmap : r.bitmap = physToVirt r.base
  low : r.base.toNat + r.bitmapStorageBytes.toNat ≤ 2 ^ 30
  pages_le : r.pages.toNat ≤ 8 * r.bitmapStorageBytes.toNat
  bytes_le : r.bitmapBytes.toNat ≤ r.bitmapStorageBytes.toNat

/-- The same region, with another number of free pages. -/
def SameHeader (r r' : PmmRegion) : Prop := r' = { r with free := r'.free }

variable {r r' : PmmRegion} {m m' : PhysicalMemory} {i k : ℕ} {a : U32}

/-- Keeping a header twice is keeping it. -/
theorem SameHeader.trans {r'' : PmmRegion} (h : r.SameHeader r') (h' : r'.SameHeader r'') :
    r.SameHeader r'' := by
  unfold SameHeader at *
  rw [h', h]

/-- Whether the boot map reaches the bitmap is a matter of the header. -/
theorem SameHeader.reaches (h : r.SameHeader r') (hr : r.Reaches) : r'.Reaches := by
  rw [h]
  exact ⟨hr.bitmap, hr.low, hr.pages_le, hr.bytes_le⟩

/-- So is which bytes hold it. -/
theorem SameHeader.holds_iff (h : r.SameHeader r') : r'.Holds a ↔ r.Holds a := by
  rw [h]
  rfl

/-! ### Reading and writing the storage -/

/-- What is behind the pointer. -/
theorem Reaches.translate (h : r.Reaches) (hk : k < r.bitmapStorageBytes.toNat) :
    bootTranslate (r.bitmap + BitVec.ofNat 32 k) = some (r.base + BitVec.ofNat 32 k) := by
  have hlow := h.low
  rw [h.bitmap]
  exact bootTranslate_physToVirt (by omega)

/-- The address of a byte of the bitmap does not wrap. -/
theorem Reaches.toNat_add (h : r.Reaches) (hk : k < r.bitmapStorageBytes.toNat) :
    (r.base + BitVec.ofNat 32 k).toNat = r.base.toNat + k := by
  have hlow := h.low
  rw [BitVec.toNat_add, BitVec.toNat_ofNat]
  omega

/-- It is one of the bytes held. -/
theorem Reaches.holds_add (h : r.Reaches) (hk : k < r.bitmapStorageBytes.toNat) :
    r.Holds (r.base + BitVec.ofNat 32 k) := by
  unfold Holds
  rw [h.toNat_add hk]
  omega

/-- A byte of the storage. -/
theorem Reaches.view_bitmap (h : r.Reaches) (m : PhysicalMemory)
    (hk : k < r.bitmapStorageBytes.toNat) :
    (r.view m).bitmap k = m (r.base + BitVec.ofNat 32 k) :=
  (BitmapRegion.trim_bitmap hk).trans (loadByte_of_eq (h.translate hk))

/-- The storage alone matters. -/
theorem Reaches.view_congr (h : r.Reaches) (hm : ∀ a, r.Holds a → m' a = m a) :
    r.view m' = r.view m := by
  have hbytes : (r.view m').bitmap = (r.view m).bitmap := by
    funext k
    by_cases hk : k < r.bitmapStorageBytes.toNat
    · rw [h.view_bitmap m' hk, h.view_bitmap m hk, hm _ (h.holds_add hk)]
    · exact (if_neg hk).trans (if_neg hk).symm
  calc r.view m' = { r.view m with bitmap := (r.view m').bitmap } := rfl
    _ = r.view m := by rw [hbytes]

/-- A byte is stored through the pointer. -/
theorem Reaches.view_storeByte (h : r.Reaches) (m : PhysicalMemory) (x : U8)
    (hk : k < r.bitmapStorageBytes.toNat) :
    r.view (storeByte m (r.bitmap + BitVec.ofNat 32 k) x) =
        { r.view m with bitmap := Function.update (r.view m).bitmap k x } ∧
      ∀ a, ¬ r.Holds a → storeByte m (r.bitmap + BitVec.ofNat 32 k) x a = m a := by
  rw [storeByte_of_eq (h.translate hk)]
  have hbytes : (r.view (Function.update m (r.base + BitVec.ofNat 32 k) x)).bitmap =
      Function.update (r.view m).bitmap k x := by
    funext j
    by_cases hj : j < r.bitmapStorageBytes.toNat
    · rw [h.view_bitmap _ hj]
      by_cases hjk : j = k
      · rw [hjk, Function.update_self, Function.update_self]
      · -- two bytes of the storage do not alias
        have hne : r.base + BitVec.ofNat 32 j ≠ r.base + BitVec.ofNat 32 k := by
          intro heq
          have heq := congrArg BitVec.toNat heq
          rw [h.toNat_add hj, h.toNat_add hk] at heq
          omega
        rw [Function.update_of_ne hne, Function.update_of_ne hjk, h.view_bitmap m hj]
    · rw [Function.update_of_ne (by omega)]
      exact (if_neg hj).trans (if_neg hj).symm
  refine ⟨?_, fun a ha => Function.update_of_ne ?_ _ _⟩
  · calc r.view (Function.update m (r.base + BitVec.ofNat 32 k) x)
        = { r.view m with
            bitmap := (r.view (Function.update m (r.base + BitVec.ofNat 32 k) x)).bitmap } := rfl
      _ = _ := by rw [hbytes]
  · rintro rfl
    exact ha (h.holds_add hk)

/-- A bit of `n` bytes lies in one of them. -/
theorem shiftRight_lt {n : ℕ} (hi : i < 8 * n) : i >>> 3 < n := by
  rw [Nat.shiftRight_eq_div_pow]
  omega

/-- A bit is read through the pointer. -/
theorem bitmapTest_view (hi : i < 8 * r.bitmapStorageBytes.toNat) :
    (r.view m).bitmapTest i = r.bitmapTest m i :=
  BitmapRegion.trim_bitmapTest (r := r.read m) hi

/-- A bit is set through the pointer. -/
theorem Reaches.bitmapSet (h : r.Reaches) (m : PhysicalMemory)
    (hi : i < 8 * r.bitmapStorageBytes.toNat) :
    r.view (r.bitmapSet m i) = (r.view m).bitmapSet i ∧
      ∀ a, ¬ r.Holds a → r.bitmapSet m i a = m a := by
  have hbyte := shiftRight_lt hi
  obtain ⟨hview, hframe⟩ := h.view_storeByte m (loadByte m (r.bitmap + BitVec.ofNat 32 (i >>> 3)) |||
    (1#8 <<< (i &&& 7))) hbyte
  refine ⟨hview.trans ?_, hframe⟩
  rw [loadByte_of_eq (h.translate hbyte), ← h.view_bitmap m hbyte]
  rfl

/-- A bit is cleared through the pointer. -/
theorem Reaches.bitmapClear (h : r.Reaches) (m : PhysicalMemory)
    (hi : i < 8 * r.bitmapStorageBytes.toNat) :
    r.view (r.bitmapClear m i) = (r.view m).bitmapClear i ∧
      ∀ a, ¬ r.Holds a → r.bitmapClear m i a = m a := by
  have hbyte := shiftRight_lt hi
  obtain ⟨hview, hframe⟩ := h.view_storeByte m (loadByte m (r.bitmap + BitVec.ofNat 32 (i >>> 3)) &&&
    ~~~ (1#8 <<< (i &&& 7))) hbyte
  refine ⟨hview.trans ?_, hframe⟩
  rw [loadByte_of_eq (h.translate hbyte), ← h.view_bitmap m hbyte]
  rfl

/-! ### One region -/

/-- **What a function does to one region**: it is seen as `q` afterwards, stays where it is, and no byte
outside its storage has changed. -/
structure Does (r r' : PmmRegion) (m m' : PhysicalMemory) (q : BitmapRegion) : Prop where
  view : r'.view m' = q
  header : r.SameHeader r'
  frame : ∀ a, ¬ r.Holds a → m' a = m a

/-- Doing nothing, on the header, on memory and on the view. -/
theorem Does.refl (r : PmmRegion) (m : PhysicalMemory) : Does r r m m (r.view m) :=
  ⟨rfl, rfl, fun _ _ => rfl⟩

/-- Another number of free pages. -/
theorem view_free (r : PmmRegion) (m : PhysicalMemory) (f : U32) :
    PmmRegion.view { r with free := f } m = { r.view m with free := f } := rfl

/-- `bitmap_mark_used_by_addr` on a region. -/
theorem Reaches.markUsed (h : r.Reaches) (addr : U32) (m : PhysicalMemory) (t : U32) :
    Does r (r.markUsed addr m t).1 m (r.markUsed addr m t).2.1 ((r.view m).markUsed addr t).1 ∧
      (r.markUsed addr m t).2.2 = ((r.view m).markUsed addr t).2 := by
  have hidx : (r.view m).addrToIndex addr = r.addrToIndex addr := rfl
  have hpages : (r.view m).pages = r.pages := rfl
  unfold PmmRegion.markUsed BitmapRegion.markUsed
  dsimp only
  rw [hidx, hpages]
  by_cases hout : r.addrToIndex addr ≥ r.pages.toNat
  · rw [if_pos hout, if_pos hout]
    exact ⟨.refl r m, rfl⟩
  rw [if_neg hout, if_neg hout]
  -- the bit of a page is in the storage
  have hi : r.addrToIndex addr < 8 * r.bitmapStorageBytes.toNat := by
    have := h.pages_le
    omega
  rw [bitmapTest_view hi]
  by_cases hbit : r.bitmapTest m (r.addrToIndex addr) = true
  · rw [if_pos hbit, if_pos hbit]
    exact ⟨.refl r m, rfl⟩
  rw [if_neg hbit, if_neg hbit]
  obtain ⟨hview, hframe⟩ := h.bitmapSet m hi
  have hfree : ((r.view m).bitmapSet (r.addrToIndex addr)).free = r.free := rfl
  rw [hfree]
  by_cases hpos : r.free > 0#32
  · rw [if_pos hpos, if_pos hpos]
    exact ⟨⟨by rw [view_free, hview], rfl, hframe⟩, rfl⟩
  · rw [if_neg hpos, if_neg hpos]
    exact ⟨⟨hview, rfl, hframe⟩, rfl⟩

/-- `pmm_bitmap_free_page` on a region. -/
theorem Reaches.release (h : r.Reaches) (addr : U32) (m : PhysicalMemory) (t : U32) :
    Does r (r.release addr m t).1 m (r.release addr m t).2.1 ((r.view m).release addr t).1 ∧
      (r.release addr m t).2.2 = ((r.view m).release addr t).2 := by
  have hidx : (r.view m).addrToIndex addr = r.addrToIndex addr := rfl
  have hpages : (r.view m).pages = r.pages := rfl
  unfold PmmRegion.release BitmapRegion.release
  dsimp only
  rw [hidx, hpages]
  by_cases hout : r.addrToIndex addr ≥ r.pages.toNat
  · rw [if_pos hout, if_pos hout]
    exact ⟨.refl r m, rfl⟩
  rw [if_neg hout, if_neg hout]
  have hi : r.addrToIndex addr < 8 * r.bitmapStorageBytes.toNat := by
    have := h.pages_le
    omega
  rw [bitmapTest_view hi]
  by_cases hbit : r.bitmapTest m (r.addrToIndex addr) = true
  · rw [if_pos hbit, if_pos hbit]
    obtain ⟨hview, hframe⟩ := h.bitmapClear m hi
    exact ⟨⟨by rw [view_free, hview]; rfl, rfl, hframe⟩, rfl⟩
  · rw [if_neg hbit, if_neg hbit]
    exact ⟨.refl r m, rfl⟩

/-- The loop that frees the pages behind the bitmap. -/
theorem Reaches.freeTail {n : ℕ} (h : r.Reaches) (m : PhysicalMemory)
    (hend : i + n ≤ 8 * r.bitmapStorageBytes.toNat) :
    Does r (freeTail n i r m).1 m (freeTail n i r m).2 (BitmapRegion.freeTail n i (r.view m)) := by
  induction n generalizing i r m with
  | zero => exact .refl r m
  | succ n ih =>
    obtain ⟨hview, hframe⟩ := h.bitmapClear m (i := i) (by omega)
    have hheader : r.SameHeader { r with free := r.free + 1#32 } := rfl
    have hrest := ih (i := i + 1) (hheader.reaches h) (r.bitmapClear m i)
      ((show i + 1 + n = i + (n + 1) by omega).le.trans hend)
    rw [view_free, hview] at hrest
    exact ⟨hrest.view, hheader.trans hrest.header, fun a ha =>
      (hrest.frame a (mt hheader.holds_iff.mp ha)).trans (hframe a ha)⟩

end PmmRegion

/-! ### All regions -/

/-- The statics with the bytes of the storages. -/
def BitmapMemory.view (s : BitmapMemory) : BitmapPmm where
  regions := s.regions.map (·.view s.memory)
  rr := s.rr
  totalPages := s.totalPages
  totalFree := s.totalFree
  ready := s.ready

/-- The storages have no byte in common. -/
def DisjointStores (l : List PmmRegion) : Prop := l.Pairwise fun r r' => ∀ a, r.Holds a → ¬ r'.Holds a

/-- **Every bitmap is reached through its pointer, and no two share a byte.** -/
structure BitmapMemory.Reaches (s : BitmapMemory) : Prop where
  regions : ∀ r ∈ s.regions, r.Reaches
  disjoint : DisjointStores s.regions

/-- **What a call does**: the statics are seen as `p` afterwards, every region stays where it is, and no
byte outside the storages has changed. -/
structure BitmapMemory.Steps (s s' : BitmapMemory) (p : BitmapPmm) : Prop where
  view : s'.view = p
  headers : List.Forall₂ PmmRegion.SameHeader s.regions s'.regions
  frame : ∀ a, (∀ r ∈ s.regions, ¬ r.Holds a) → s'.memory a = s.memory a

section
variable {l l' : List PmmRegion} {m m' : PhysicalMemory} {t : U32} {addr : U32}

/-- Where the bitmaps lie is a matter of the headers. -/
theorem DisjointStores.of_headers (h : DisjointStores l)
    (hl : List.Forall₂ PmmRegion.SameHeader l l') : DisjointStores l' := by
  unfold DisjointStores at *
  induction hl with
  | nil => exact .nil
  | cons hr hl ih =>
    rw [List.pairwise_cons] at h ⊢
    refine ⟨fun r' hr' a => ?_, ih h.2⟩
    obtain ⟨r₂, hr₂, hsame⟩ := BitmapPmm.forall₂_mem hl.flip hr'
    rw [hr.holds_iff, PmmRegion.SameHeader.holds_iff hsame]
    exact h.1 r₂ hr₂ a

/-- A function on the first region with an address, in memory and on the bytes of the storages. -/
structure Agrees (f : PmmRegion → PhysicalMemory → U32 → PmmRegion × PhysicalMemory × U32)
    (g : BitmapRegion → U32 → BitmapRegion × U32) : Prop where
  does : ∀ r m t, r.Reaches → PmmRegion.Does r (f r m t).1 m (f r m t).2.1 (g (r.view m) t).1
  total : ∀ r m t, r.Reaches → (f r m t).2.2 = (g (r.view m) t).2

variable {f : PmmRegion → PhysicalMemory → U32 → PmmRegion × PhysicalMemory × U32}
  {g : BitmapRegion → U32 → BitmapRegion × U32}

/-- Regions whose storages have not changed. -/
theorem map_view_congr (hl : ∀ r ∈ l, r.Reaches) (hm : ∀ r ∈ l, ∀ a, r.Holds a → m' a = m a) :
    l.map (·.view m') = l.map (·.view m) :=
  List.map_congr_left fun r hr => (hl r hr).view_congr (hm r hr)

/-- The loops that look for the region with an address. -/
theorem Agrees.atRegionOf (hfg : Agrees f g) (hl : ∀ r ∈ l, r.Reaches) (hdis : DisjointStores l) :
    (InMemory.atRegionOf addr f m t l).1.map (·.view (InMemory.atRegionOf addr f m t l).2.1) =
        (Pmm.atRegionOf addr g t (l.map (·.view m))).1 ∧
      (InMemory.atRegionOf addr f m t l).2.2 = (Pmm.atRegionOf addr g t (l.map (·.view m))).2 ∧
      List.Forall₂ PmmRegion.SameHeader l (InMemory.atRegionOf addr f m t l).1 ∧
      ∀ a, (∀ r ∈ l, ¬ r.Holds a) → (InMemory.atRegionOf addr f m t l).2.1 a = m a := by
  induction l with
  | nil => exact ⟨rfl, rfl, .nil, fun _ _ => rfl⟩
  | cons r l ih =>
    unfold DisjointStores at hdis
    rw [List.pairwise_cons] at hdis
    rw [List.forall_mem_cons] at hl
    have hcontains : (r.view m).containsAddr addr = r.containsAddr addr := rfl
    rw [InMemory.atRegionOf, List.map_cons, Pmm.atRegionOf, hcontains]
    by_cases hr : r.containsAddr addr = true
    · -- this region, the storages behind it are not touched
      rw [if_pos hr, if_pos hr]
      have hdoes := hfg.does r m t hl.1
      refine ⟨?_, hfg.total r m t hl.1, .cons hdoes.header (List.forall₂_same.mpr fun _ _ => rfl),
        fun a ha => hdoes.frame a (ha r List.mem_cons_self)⟩
      dsimp only
      rw [List.map_cons, hdoes.view, map_view_congr hl.2 fun r' hr' a ha =>
        hdoes.frame a fun hra => hdis.1 r' hr' a hra ha]
    · rw [if_neg hr, if_neg hr]
      obtain ⟨hview, htotal, hheaders, hframe⟩ := ih hl.2 hdis.2
      refine ⟨?_, htotal, .cons rfl hheaders, fun a ha =>
        hframe a fun r' hr' => ha r' (List.mem_cons_of_mem r hr')⟩
      dsimp only
      rw [List.map_cons, hview, hl.1.view_congr fun a ha => hframe a fun r' hr' => hdis.1 r' hr' a ha]

end

/-! ### Calls -/

namespace BitmapMemory

variable {s s' s'' : BitmapMemory} {p q : BitmapPmm}

/-- Doing nothing, on all regions. -/
theorem Steps.refl (s : BitmapMemory) : Steps s s s.view :=
  ⟨rfl, List.forall₂_same.mpr fun _ _ => rfl, fun _ _ => rfl⟩

/-- A step leaves the bitmaps where the boot map reaches them. -/
theorem Steps.reaches (h : Steps s s' p) (hs : s.Reaches) : s'.Reaches := by
  refine ⟨fun r' hr' => ?_, hs.disjoint.of_headers h.headers⟩
  obtain ⟨r, hr, hsame⟩ := BitmapPmm.forall₂_mem h.headers.flip hr'
  exact PmmRegion.SameHeader.reaches hsame (hs.regions r hr)

/-- The storages after a step. -/
theorem Steps.not_holds (h : Steps s s' p) {a : U32} (ha : ∀ r ∈ s.regions, ¬ r.Holds a) :
    ∀ r ∈ s'.regions, ¬ r.Holds a := by
  intro r' hr'
  obtain ⟨r, hr, hsame⟩ := BitmapPmm.forall₂_mem h.headers.flip hr'
  exact mt (PmmRegion.SameHeader.holds_iff hsame).mp (ha r hr)

/-- Steps compose. -/
theorem Steps.trans (h : Steps s s' p) (h' : Steps s' s'' q) : Steps s s'' q :=
  ⟨h'.view, BitmapPmm.forall₂_comp (fun _ _ _ hr hr' => hr.trans hr') h.headers h'.headers,
    fun a ha => (h'.frame a (h.not_holds ha)).trans (h.frame a ha)⟩

/-- A step to the same regions written otherwise. -/
theorem Steps.of_eq (h : Steps s s' p) (hpq : p = q) : Steps s s' q := hpq ▸ h

/-- Writes outside the storages are not seen. -/
theorem Reaches.view_memory (hs : s.Reaches) {m : PhysicalMemory}
    (hm : ∀ r ∈ s.regions, ∀ a, r.Holds a → m a = s.memory a) :
    BitmapMemory.view { s with memory := m } = s.view := by
  unfold BitmapMemory.view
  rw [map_view_congr hs.regions hm]

/-- The loops that look for the region with an address, on the statics. -/
theorem Reaches.onRegionOf (hs : s.Reaches)
    {f : PmmRegion → PhysicalMemory → U32 → PmmRegion × PhysicalMemory × U32}
    {g : BitmapRegion → U32 → BitmapRegion × U32} (hfg : Agrees f g) (addr : U32) :
    Steps s (InMemory.onRegionOf s addr f) (s.view.atRegionOf addr g) := by
  obtain ⟨hview, htotal, hheaders, hframe⟩ :=
    hfg.atRegionOf (m := s.memory) (t := s.totalFree) hs.regions hs.disjoint
  refine ⟨?_, hheaders, hframe⟩
  unfold BitmapMemory.view BitmapPmm.atRegionOf InMemory.onRegionOf
  dsimp only
  rw [hview, htotal]

/-- Marking a page in memory and on the view agree. -/
theorem agrees_markUsed (addr : U32) : Agrees (PmmRegion.markUsed addr) (BitmapRegion.markUsed addr) :=
  ⟨fun _ m t hr => (hr.markUsed addr m t).1, fun _ m t hr => (hr.markUsed addr m t).2⟩

/-- Releasing a page in memory and on the view agree. -/
theorem agrees_release (addr : U32) : Agrees (PmmRegion.release addr) (BitmapRegion.release addr) :=
  ⟨fun _ m t hr => (hr.release addr m t).1, fun _ m t hr => (hr.release addr m t).2⟩

/-- `bitmap_mark_used_by_addr`. -/
theorem Reaches.markUsedByAddr_steps (hs : s.Reaches) (addr : U32) :
    Steps s (InMemory.bitmapMarkUsedByAddr addr s) (Pmm.bitmapMarkUsedByAddr addr s.view) := by
  have hready : s.view.ready = s.ready := rfl
  unfold InMemory.bitmapMarkUsedByAddr Pmm.bitmapMarkUsedByAddr
  rw [hready]
  by_cases h : ¬ s.ready = true
  · rw [if_pos h, if_pos h]
    exact .refl s
  · rw [if_neg h, if_neg h]
    exact hs.onRegionOf (agrees_markUsed _) _

/-- The loop that marks a range, in memory and on the view. -/
theorem Reaches.markUsedLoop_steps (hs : s.Reaches) (stop : U32) {n : ℕ} {a : U32}
    (hp : Pmm.bitmapMarkUsedLoop stop n a s.view = some p) :
    ∃ s', InMemory.bitmapMarkUsedLoop stop n a s = some s' ∧ Steps s s' p := by
  induction n generalizing s a with
  | zero => cases hp
  | succ n ih =>
    rw [Pmm.bitmapMarkUsedLoop] at hp
    rw [InMemory.bitmapMarkUsedLoop]
    by_cases hlt : a < stop
    · rw [if_pos hlt] at hp ⊢
      have hone := hs.markUsedByAddr_steps a
      obtain ⟨s', hres, hs'⟩ := ih (hone.reaches hs) (hone.view.symm ▸ hp)
      exact ⟨s', hres, hone.trans hs'⟩
    · rw [if_neg hlt] at hp ⊢
      obtain rfl := Option.some.inj hp
      exact ⟨s, rfl, .refl s⟩

/-- `bitmap_mark_used_range`, when the other allocator's loop ends. -/
theorem Reaches.markUsedRange_steps (hs : s.Reaches) {start stop : U32}
    (hp : Pmm.bitmapMarkUsedRange start stop s.view = some p) :
    ∃ s', InMemory.bitmapMarkUsedRange start stop s = some s' ∧ Steps s s' p := by
  have hready : s.view.ready = s.ready := rfl
  unfold Pmm.bitmapMarkUsedRange at hp
  unfold InMemory.bitmapMarkUsedRange
  rw [hready] at hp
  by_cases h : ¬ s.ready = true
  · rw [if_pos h] at hp ⊢
    exact ⟨s, rfl, (Steps.refl s).of_eq (Option.some.inj hp)⟩
  rw [if_neg h] at hp ⊢
  by_cases hle : stop ≤ start
  · rw [if_pos hle] at hp ⊢
    exact ⟨s, rfl, (Steps.refl s).of_eq (Option.some.inj hp)⟩
  · rw [if_neg hle] at hp ⊢
    exact hs.markUsedLoop_steps _ hp

/-- `pmm_resync_free_count`. -/
theorem Reaches.resync_steps (hs : s.Reaches) :
    Steps s (InMemory.pmmResyncFreeCount s) (Pmm.pmmResyncFreeCount s.view) := by
  have hregions : (InMemory.pmmResyncFreeCount s).regions.map (·.view s.memory) =
      s.view.regions.map fun r => { r with free := r.countFree r.pages.toNat } := by
    show (s.regions.map _).map _ = (s.regions.map _).map _
    rw [List.map_map, List.map_map]
    refine List.map_congr_left fun r hr => ?_
    -- the loop counts bits of pages, which are all in the storage
    have hcount : (r.view s.memory).countFree r.pages.toNat =
        (r.read s.memory).countFree r.pages.toNat :=
      BitmapRegion.trim_countFree (r := r.read s.memory) (hs.regions r hr).pages_le
    show PmmRegion.view { r with free := _ } _ =
      { r.view s.memory with free := (r.view s.memory).countFree r.pages.toNat }
    rw [PmmRegion.view_free, hcount]
  have hfree : (InMemory.pmmResyncFreeCount s).regions.map (·.free) =
      ((InMemory.pmmResyncFreeCount s).regions.map (·.view s.memory)).map (·.free) := by
    rw [List.map_map]
    rfl
  refine ⟨?_, ?_, fun _ _ => rfl⟩
  · unfold BitmapMemory.view
    show BitmapPmm.mk ((InMemory.pmmResyncFreeCount s).regions.map (·.view s.memory)) s.rr s.totalPages
      (((InMemory.pmmResyncFreeCount s).regions.map (·.free)).foldl (· + ·) 0#32) s.ready = _
    rw [hfree, hregions]
    rfl
  · show List.Forall₂ _ s.regions (s.regions.map _)
    rw [List.forall₂_map_right_iff, List.forall₂_same]
    exact fun _ _ => rfl

/-- One region of the list is updated, with its storage. -/
theorem Reaches.set_view (hs : s.Reaches) {ri : ℕ} {r r' : PmmRegion} {m' : PhysicalMemory}
    {x : BitmapRegion} (hr : s.regions[ri]? = some r) (hdoes : PmmRegion.Does r r' s.memory m' x) :
    (s.regions.set ri r').map (·.view m') = s.view.regions.set ri x := by
  rw [List.map_set, hdoes.view]
  refine List.ext_getElem? fun j => ?_
  rw [List.getElem?_set, List.getElem?_set]
  have hlen : (s.regions.map (·.view m')).length = s.view.regions.length := by
    show (s.regions.map _).length = (s.regions.map _).length
    rw [List.length_map, List.length_map]
  rw [hlen]
  by_cases hj : ri = j
  · rw [if_pos hj, if_pos hj]
  · rw [if_neg hj, if_neg hj]
    show (s.regions.map _)[j]? = (s.regions.map _)[j]?
    rw [List.getElem?_map, List.getElem?_map]
    cases hrj : s.regions[j]? with
    | none => rfl
    | some r₂ =>
      refine congrArg some ((hs.regions r₂ (List.mem_of_getElem? hrj)).view_congr fun a ha => ?_)
      refine hdoes.frame a fun hra => ?_
      -- the two regions are different ones of the list
      obtain ⟨hri, rfl⟩ := List.getElem?_eq_some_iff.mp hr
      obtain ⟨hlt, rfl⟩ := List.getElem?_eq_some_iff.mp hrj
      have hpair := List.pairwise_iff_getElem.mp hs.disjoint
      rcases Nat.lt_or_gt_of_ne hj with hlt' | hgt
      · exact hpair ri j hri hlt hlt' a hra ha
      · exact hpair j ri hlt hri hgt a ha hra

/-- What the search of `pmm_bitmap_alloc_page` makes of a region with a free page. -/
theorem Reaches.take_steps (hs : s.Reaches) {ri idx : ℕ} {r : PmmRegion} (hr : s.regions[ri]? = some r)
    (hidx : idx < r.pages.toNat) (t : U32) :
    Steps s { s with
        regions := s.regions.set ri { r with free := r.free - 1#32 }
        memory := r.bitmapSet s.memory idx
        totalFree := t
        rr := ri }
      { s.view with
        regions := s.view.regions.set ri
          { (r.view s.memory).bitmapSet idx with free := ((r.view s.memory).bitmapSet idx).free - 1#32 }
        totalFree := t
        rr := ri } := by
  have hmem := List.mem_of_getElem? hr
  have hreach := hs.regions r hmem
  obtain ⟨hview, hframe⟩ := hreach.bitmapSet s.memory (hidx.trans_le hreach.pages_le)
  have hdoes : PmmRegion.Does r { r with free := r.free - 1#32 } s.memory (r.bitmapSet s.memory idx)
      { (r.view s.memory).bitmapSet idx with free := ((r.view s.memory).bitmapSet idx).free - 1#32 } :=
    ⟨by rw [PmmRegion.view_free, hview]; rfl, rfl, hframe⟩
  refine ⟨?_, ?_, fun a ha => hframe a (ha r hmem)⟩
  · unfold BitmapMemory.view
    dsimp only
    rw [hs.set_view hr hdoes]
    rfl
  · refine List.forall₂_iff_get.mpr ⟨List.length_set.symm, fun j hj hj' => ?_⟩
    dsimp only
    rw [List.get_eq_getElem, List.get_eq_getElem, List.getElem_set]
    split
    · rename_i heq
      subst heq
      obtain ⟨hlt, rfl⟩ := List.getElem?_eq_some_iff.mp hr
      rfl
    · rfl

/-- The search of `pmm_bitmap_alloc_page`. -/
theorem Reaches.allocScan (hs : s.Reaches) (n off : ℕ) :
    (InMemory.bitmapAllocScan s n off).map (fun q => (q.1.view, q.2)) = bitmapAllocScan s.view n off ∧
      ∀ q, InMemory.bitmapAllocScan s n off = some q → Steps s q.1 q.1.view := by
  induction n generalizing off with
  | zero => exact ⟨rfl, fun _ hq => by cases hq⟩
  | succ n ih =>
    obtain ⟨hrest, hsteps⟩ := ih (off + 1)
    have hlen : s.view.regions.length = s.regions.length := List.length_map _
    have hrr : s.view.rr = s.rr := rfl
    have hget : s.view.regions[(s.rr + off) % s.regions.length]? =
        s.regions[(s.rr + off) % s.regions.length]?.map (·.view s.memory) := List.getElem?_map
    rw [InMemory.bitmapAllocScan, bitmapAllocScan]
    dsimp only
    rw [hlen, hrr, hget]
    cases hr : s.regions[(s.rr + off) % s.regions.length]? with
    | none =>
      rw [Option.map_none, Option.bind_none, Option.bind_none, Option.none_or, Option.none_or]
      -- no such region
      exact ⟨hrest, hsteps⟩
    | some r =>
      have hreach := hs.regions r (List.mem_of_getElem? hr)
      have hfree : (r.view s.memory).free = r.free := rfl
      -- the search stays in the storage
      have hfind : (r.view s.memory).findFreeIndex = (r.read s.memory).findFreeIndex :=
        BitmapRegion.trim_findFreeIndex (r := r.read s.memory) hreach.pages_le hreach.bytes_le
      rw [Option.map_some, Option.bind_some, Option.bind_some, hfree, hfind]
      by_cases hzero : r.free = 0#32
      · -- a full region is passed over
        rw [if_pos hzero, if_pos hzero, Option.none_or, Option.none_or]
        exact ⟨hrest, hsteps⟩
      rw [if_neg hzero, if_neg hzero]
      cases hidx : (r.read s.memory).findFreeIndex with
      | none =>
        rw [Option.map_none, Option.map_none, Option.none_or, Option.none_or]
        exact ⟨hrest, hsteps⟩
      | some idx =>
        have hlt : idx < r.pages.toNat := (BitmapRegion.findFreeByte_some hidx).1
        have htake := hs.take_steps hr hlt
          (if s.totalFree > 0#32 then s.totalFree - 1#32 else s.totalFree)
        rw [Option.map_some, Option.map_some, Option.some_or, Option.some_or, Option.map_some, htake.view]
        refine ⟨rfl, fun q hq => ?_⟩
        obtain rfl := Option.some.inj hq
        exact htake.of_eq htake.view.symm

/-- **`pmm_bitmap_alloc_page`.** -/
theorem Reaches.alloc_steps (hs : s.Reaches) :
    Steps s (InMemory.pmmBitmapAllocPage s).1 (Pmm.pmmBitmapAllocPage s.view).1 ∧
      (InMemory.pmmBitmapAllocPage s).2 = (Pmm.pmmBitmapAllocPage s.view).2 := by
  have hready : s.view.ready = s.ready := rfl
  have hlen : s.view.regions.length = s.regions.length := List.length_map _
  have hpages : s.view.totalPages = s.totalPages := rfl
  have hfree : s.view.totalFree = s.totalFree := rfl
  unfold InMemory.pmmBitmapAllocPage Pmm.pmmBitmapAllocPage
  rw [hready, hlen, hpages, hfree]
  by_cases h : ¬ s.ready = true ∨ s.regions.length = 0 ∨ s.totalPages = 0#32
  · rw [if_pos h, if_pos h]
    exact ⟨.refl s, rfl⟩
  rw [if_neg h, if_neg h]
  by_cases hzero : s.totalFree = 0#32
  · rw [if_pos hzero, if_pos hzero]
    exact ⟨.refl s, rfl⟩
  rw [if_neg hzero, if_neg hzero]
  -- the scan finds a page in both, or in neither
  obtain ⟨hscan, hsteps⟩ := hs.allocScan s.regions.length 0
  rw [← hscan]
  cases hq : InMemory.bitmapAllocScan s s.regions.length 0 with
  | none => exact ⟨hs.resync_steps, rfl⟩
  | some q => exact ⟨hsteps q hq, rfl⟩

/-- **`pmm_bitmap_free_page`.** -/
theorem Reaches.free_steps (hs : s.Reaches) (page : U32) :
    Steps s (InMemory.pmmBitmapFreePage page s) (Pmm.pmmBitmapFreePage page s.view) := by
  have hready : s.view.ready = s.ready := rfl
  unfold InMemory.pmmBitmapFreePage Pmm.pmmBitmapFreePage
  rw [hready]
  by_cases h : ¬ s.ready = true ∨ page = 0#32
  · rw [if_pos h, if_pos h]
    exact .refl s
  rw [if_neg h, if_neg h]
  by_cases ha : ¬ page.PageAligned
  · rw [if_pos ha, if_pos ha]
    exact .refl s
  · rw [if_neg ha, if_neg ha]
    exact hs.onRegionOf (agrees_release page) page

/-- A free of a page changes nothing, or one counter. -/
theorem free_cases (s : BitmapMemory) (page : U32) :
    InMemory.pmmBitmapFreePage page s = s ∨
      (InMemory.pmmBitmapFreePage page s).totalFree = s.totalFree + 1#32 := by
  have hloop : ∀ (l : List PmmRegion) (m : PhysicalMemory) (t : U32),
      InMemory.atRegionOf page (PmmRegion.release page) m t l = (l, m, t) ∨
        (InMemory.atRegionOf page (PmmRegion.release page) m t l).2.2 = t + 1#32 := by
    intro l m t
    induction l with
    | nil => exact .inl rfl
    | cons r l ih =>
      rw [InMemory.atRegionOf]
      by_cases hr : r.containsAddr page = true
      · rw [if_pos hr]
        unfold PmmRegion.release
        dsimp only
        by_cases hout : r.addrToIndex page ≥ r.pages.toNat
        · rw [if_pos hout]
          exact .inl rfl
        rw [if_neg hout]
        by_cases hbit : r.bitmapTest m (r.addrToIndex page) = true
        · rw [if_pos hbit]
          exact .inr rfl
        · rw [if_neg hbit]
          exact .inl rfl
      · rw [if_neg hr]
        rcases ih with heq | heq
        · rw [heq]
          exact .inl rfl
        · exact .inr heq
  unfold InMemory.pmmBitmapFreePage
  by_cases h : ¬ s.ready = true ∨ page = 0#32
  · rw [if_pos h]
    exact .inl rfl
  rw [if_neg h]
  by_cases ha : ¬ page.PageAligned
  · rw [if_pos ha]
    exact .inl rfl
  rw [if_neg ha]
  unfold InMemory.onRegionOf
  rcases hloop s.regions s.memory s.totalFree with heq | heq
  · rw [heq]
    exact .inl rfl
  · exact .inr heq

/-- **A free that the other allocator does not notice changes nothing.** -/
theorem Reaches.free_eq (hs : s.Reaches) {page : U32} (h : Pmm.pmmBitmapFreePage page s.view = s.view) :
    InMemory.pmmBitmapFreePage page s = s := by
  rcases free_cases s page with heq | htotal
  · exact heq
  · -- a bit that was cleared would show in the counter
    have hview := congrArg BitmapPmm.totalFree ((hs.free_steps page).view.trans h)
    have hcontra : s.totalFree + 1#32 = s.totalFree := htotal.symm.trans hview
    bv_omega

end BitmapMemory

end Microkernel.Pmm
