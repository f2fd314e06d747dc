import Microkernel.Boot.Multiboot
import Microkernel.Pmm.BitmapMemoryInit
import Microkernel.Pmm.BuddyLayout

/-! # The entries of a memory map

The loops of `pmm_bitmap_init`, `pmm_buddy_init` and `mmap_dump_and_pick_best` over the entries of a memory
map tag. Their test adds the size of an entry to an address, and is passed again when that sum wraps. The
loop of `pmm_bitmap_init` also writes while it reads: each region that it adds gets its bitmap, at a pointer
that wraps from 1 GiB on, and a bitmap that lands on the tag changes the entries still to come.

* **`EntryWalk`, `mmapEntryLoop`** — what a loop does with an entry, and the loop, which reads the memory of
  its current state. `foldEntries` is the same on a list of entries.
* **`MmapTag`** — a tag that passes the checks, with the entries that lie in it; `MmapTag.ReadBy` says that a
  loop reads these only, and ends.
* **`MmapTag.KeptBy`** — the loop leaves the bytes of the tag alone. Under it `mmapEntryLoop_readBy_iff` says
  exactly when the loop stays in the tag, and `mmapEntryLoop_result` that it makes what the entries make.
* **`MmapTag.MissedByHighBitmaps`** — the bitmaps that are not stored between 1 MiB and 1 GiB miss the tag;
  all others do as the layouts are made (`keptBy_bitmapWalk`). -/

namespace Microkernel.Boot

open Pmm

/-- `entry_size` of the `struct mb2_tag_mmap` at an address. -/
def mmapEntrySize (memory : U32 → U8) (tag : U32) : U32 := load32 memory (tag + 8#32)

/-- `entry_version`. -/
def mmapEntryVersion (memory : U32 → U8) (tag : U32) : U32 := load32 memory (tag + 12#32)

/-- The `struct mb2_mmap_entry` at an address. -/
def mmapEntry (memory : U32 → U8) (p : U32) : Mb2MmapEntry :=
  ⟨load64 memory p, load64 memory (p + 8#32), load32 memory (p + 16#32)⟩

/-- What a loop over entries does with one, with what the entries before have made: an entry may end the loop
with a result. -/
structure EntryWalk (α ρ : Type) where
  /-- The body of the loop. -/
  step : Mb2MmapEntry → α → ρ ⊕ α
  /-- The result behind the last entry. -/
  exit : α → ρ
  /-- What is read through a pointer. -/
  read : α → U32 → U8

/-- The loop over the entries of a tag up to `entries_end`: the address of the next entry, and what the
entries before it have made. -/
def mmapEntryLoop {α ρ : Type} (W : EntryWalk α ρ) (tag entriesEnd : U32) : WhileLoop (U32 × α) ρ where
  test s := decide (s.1 + mmapEntrySize (W.read s.2) tag ≤ entriesEnd)
  body s := (W.step (mmapEntry (W.read s.2) s.1) s.2).map id fun acc =>
    (s.1 + mmapEntrySize (W.read acc) tag, acc)
  exit s := W.exit s.2

/-! ### The three loops -/

/-- What the loop of `pmm_bitmap_init` does with an entry: when there is no room for its region it ends; `none`
is a page fault of `memfill_u8`. -/
def bitmapStep (kernel info : BootBlock) (e : Mb2MmapEntry) (q : List PmmRegion × PhysicalMemory) :
    Option (List PmmRegion × PhysicalMemory) ⊕ (List PmmRegion × PhysicalMemory) :=
  match clipEntry e with
  | none => .inr q
  | some usable =>
      if q.1.length ≥ pmmMaxRegions then .inl (some q)
      else
        match pmmComputeRegionLayout kernel info usable with
        | none => .inr q
        | some l =>
            match InMemory.pmmAddRegion l q with
            | none => .inl none
            | some q' => .inr q'

/-- The loop of `pmm_bitmap_init`, which reads the memory that it writes. -/
def bitmapWalk (kernel info : BootBlock) :
    EntryWalk (List PmmRegion × PhysicalMemory) (Option (List PmmRegion × PhysicalMemory)) :=
  ⟨bitmapStep kernel info, some, fun q => loadByte q.2⟩

/-- The loop of `pmm_bitmap_init` for `n` rounds. -/
def pmmBitmapEntries (m : PhysicalMemory) (kernel info : BootBlock) (tag : U32) (n : ℕ) :
    Rounds (U32 × List PmmRegion × PhysicalMemory) (Option (List PmmRegion × PhysicalMemory)) :=
  (mmapEntryLoop (bitmapWalk kernel info) tag (tag + tagSize (loadByte m) tag)).run n
    (tag + 16#32, [], m)

/-- The loop of `pmm_buddy_init`, which writes nothing into memory. -/
def buddyWalk (memory : U32 → U8) : EntryWalk (U32 × U32) (U32 × U32) :=
  ⟨fun e best => .inr (buddyConsider best e), id, fun _ => memory⟩

/-- The loop of `pmm_buddy_init` for `n` rounds. -/
def pmmBuddyEntries (memory : U32 → U8) (tag : U32) (n : ℕ) : Rounds (U32 × U32 × U32) (U32 × U32) :=
  (mmapEntryLoop (buddyWalk memory) tag (tag + tagSize memory tag)).run n (tag + 16#32, 0#32, 0#32)

/-- `struct avail_region`. -/
structure AvailRegion where
  start : U64
  stop : U64
  bytes : U64

/-- `avail_region_consider(best, start, end)`. -/
def availRegionConsider (best : AvailRegion) (start stop : U64) : AvailRegion :=
  if stop ≤ start then best
  else
    let bytes := stop - start
    if bytes > best.bytes then ⟨start, stop, bytes⟩ else best

/-- A line that `mmap_dump_and_pick_best` prints. -/
inductive MmapLine where
  | invalidTagSize
  | invalidEntrySize
  | memoryMap (tagSize entrySize version : U32)
  | entry (base stop len : U64) (mb type : U32)

/-- What the loop of `mmap_dump_and_pick_best` does with an entry: the region that it keeps, and the lines. -/
def mmapStep (e : Mb2MmapEntry) (s : AvailRegion × List MmapLine) : AvailRegion × List MmapLine :=
  let start := e.addr
  let stop := u64AddSat e.addr e.len
  let mb : U32 := ((e.len + (1#64 <<< 20) - 1#64) >>> 20).setWidth 32
  let printed := s.2 ++ [.entry start stop e.len mb e.type]
  if e.type ≠ 1#32 then (s.1, printed)
  else if stop = 0xFFFFFFFFFFFFFFFF#64 ∨ stop ≤ start then (s.1, printed)
  else
    let start := if start < 0x100000#64 then 0x100000#64 else start
    if stop ≤ start then (s.1, printed)
    else (availRegionConsider s.1 start stop, printed)

/-- The loop of `mmap_dump_and_pick_best`. -/
def mmapWalk (memory : U32 → U8) : EntryWalk (AvailRegion × List MmapLine) (AvailRegion × List MmapLine) :=
  ⟨fun e s => .inr (mmapStep e s), id, fun _ => memory⟩

/-- `mmap_dump_and_pick_best(mmap_tag, best)` for a tag that passes the checks: the region that it keeps, and
the lines that it prints. -/
def mmapDumpEntries (memory : U32 → U8) (tag : U32) (n : ℕ) :
    Rounds (U32 × AvailRegion × List MmapLine) (AvailRegion × List MmapLine) :=
  (mmapEntryLoop (mmapWalk memory) tag (tag + tagSize memory tag)).run n
    (tag + 16#32, ⟨0#64, 0#64, 0#64⟩,
      [.memoryMap (tagSize memory tag) (mmapEntrySize memory tag) (mmapEntryVersion memory tag)])

/-- `mmap_dump_and_pick_best(mmap_tag, best)`, neither of them `NULL`: `none` for the result 0, and the lines
that are printed. -/
def mmapDumpAndPickBest (memory : U32 → U8) (tag : U32) (n : ℕ) :
    Rounds (U32 × AvailRegion × List MmapLine) (Option AvailRegion × List MmapLine) :=
  if tagSize memory tag < 16#32 then ⟨[], some (none, [.invalidTagSize])⟩
  else if mmapEntrySize memory tag < 24#32 then ⟨[], some (none, [.invalidEntrySize])⟩
  else
    let rounds := mmapDumpEntries memory tag n
    ⟨rounds.entered, rounds.result.map fun s => (some s.1, s.2)⟩

/-- A memory map tag that lies in boot information whose end has an address, and whose fields pass the checks
in front of the loops. -/
structure MmapTag (memory : U32 → U8) where
  addr : U32
  size_ge : 16#32 ≤ tagSize memory addr
  entrySize_ge : 24#32 ≤ mmapEntrySize memory addr
  fits : addr.toNat + (tagSize memory addr).toNat < 2 ^ 32

namespace MmapTag
variable {memory : U32 → U8} (tag : MmapTag memory)

/-- `size`. -/
def size : ℕ := (tagSize memory tag.addr).toNat

/-- `entry_size`. -/
def entrySize : ℕ := (mmapEntrySize memory tag.addr).toNat

/-- The number of entries that lie in the tag. -/
def count : ℕ := (tag.size - 16) / tag.entrySize

/-- Where entry `k` starts. -/
def entryAddr (k : ℕ) : ℕ := tag.addr.toNat + 16 + k * tag.entrySize

/-- The entries that lie in the tag. -/
def entries : List Mb2MmapEntry :=
  (List.range tag.count).map fun k => mmapEntry memory (BitVec.ofNat 32 (tag.entryAddr k))

/-- **The sum that ends the loop does not wrap**: the end of the entry behind the last one of the tag. -/
def StaysBelow : Prop := tag.entryAddr (tag.count + 1) < 2 ^ 32

/-- **The loop reads entries of the tag only**, as many as fit into its size at most. -/
structure ReadBy {α ρ : Type} (walk : ℕ → Rounds (U32 × α) ρ) : Prop where
  entry_inside : ∀ n, ∀ s ∈ (walk n).entered,
    tag.addr.toNat + 16 ≤ s.1.toNat ∧ s.1.toNat + tag.entrySize ≤ tag.addr.toNat + tag.size
  ends : ∃ n r, (walk n).result = some r
  rounds_le : ∀ n, (walk n).entered.length ≤ tag.size / tag.entrySize

/-! ### Addresses of the entries -/

/-- The entry size of a tag that passes the checks, as a number. -/
theorem entrySize_ge' : 24 ≤ tag.entrySize := BitVec.le_def.mp tag.entrySize_ge

/-- An entry lies behind the one before. -/
theorem entryAddr_succ (k : ℕ) : tag.entryAddr (k + 1) = tag.entryAddr k + tag.entrySize := by
  unfold entryAddr
  rw [Nat.add_mul, Nat.one_mul, Nat.add_assoc _ _ tag.entrySize]

/-- No entry begins behind the end of the tag. -/
theorem entryAddr_le {k : ℕ} (hk : k ≤ tag.count) : tag.entryAddr k ≤ tag.addr.toNat + tag.size := by
  have hsize : 16 ≤ tag.size := BitVec.le_def.mp tag.size_ge
  have hcount : tag.count * tag.entrySize ≤ tag.size - 16 := Nat.div_mul_le_self ..
  have hmul := Nat.mul_le_mul_right tag.entrySize hk
  unfold entryAddr
  omega

/-- Behind the entries of a tag there is no room for one more. -/
theorem lt_entryAddr : tag.addr.toNat + tag.size < tag.entryAddr (tag.count + 1) := by
  have hpos : 0 < tag.entrySize := Nat.lt_of_lt_of_le (by decide) tag.entrySize_ge'
  have hdiv : tag.size - 16 < (tag.count + 1) * tag.entrySize := Nat.lt_mul_of_div_lt (Nat.lt_succ_self _) hpos
  unfold entryAddr
  omega

/-- The entries behind an entry of the tag. -/
theorem rest_div {k : ℕ} (hk : k ≤ tag.count) :
    (tag.addr.toNat + tag.size - tag.entryAddr k) / tag.entrySize = tag.count - k := by
  have hrest : tag.addr.toNat + tag.size - tag.entryAddr k = tag.size - 16 - tag.entrySize * k := by
    have := tag.entryAddr_le hk
    rw [Nat.mul_comm]
    unfold entryAddr at this ⊢
    omega
  rw [hrest, Nat.sub_mul_div]
  rfl

/-- A tag has as many entries as fit into it. -/
theorem length_entries : tag.entries.length = tag.count := by
  rw [entries, List.length_map, List.length_range]

/-- The entry that is read at the address of entry `k`. -/
theorem entries_getElem? {k : ℕ} {p : U32} (hk : k < tag.count) (hp : p.toNat = tag.entryAddr k) :
    tag.entries[k]? = some (mmapEntry memory p) := by
  rw [entries, List.getElem?_map, List.getElem?_range hk, Option.map_some, ← hp, BitVec.ofNat_toNat,
    BitVec.setWidth_eq]

/-- The byte of the tag at an offset. -/
theorem toNat_byte {j : ℕ} (hj : j < tag.size) :
    (tag.addr + BitVec.ofNat 32 j).toNat = tag.addr.toNat + j := by
  have hfits : tag.addr.toNat + tag.size < 2 ^ 32 := tag.fits
  rw [BitVec.toNat_add, BitVec.toNat_ofNat]
  omega

/-- A pointer into the tag is the pointer to one of its bytes. -/
theorem eq_byte {p : U32} (hle : tag.addr.toNat ≤ p.toNat) (hlt : p.toNat < tag.addr.toNat + tag.size) :
    ∃ j < tag.size, p = tag.addr + BitVec.ofNat 32 j := by
  refine ⟨p.toNat - tag.addr.toNat, by omega, BitVec.eq_of_toNat_eq ?_⟩
  rw [tag.toNat_byte (by omega)]
  omega

end MmapTag

/-! ### The bytes of a tag -/

/-- Two memories hold the same bytes of the tag. -/
def MmapTag.SameBytes {memory : U32 → U8} (tag : MmapTag memory) (memory' : U32 → U8) : Prop :=
  ∀ j < tag.size, memory' (tag.addr + BitVec.ofNat 32 j) = memory (tag.addr + BitVec.ofNat 32 j)

section
variable {memory memory' : U32 → U8} {tag : MmapTag memory} {p : U32}

/-- A word of the tag. -/
theorem MmapTag.SameBytes.load32_eq (h : tag.SameBytes memory') (hle : tag.addr.toNat ≤ p.toNat)
    (hlt : p.toNat + 4 ≤ tag.addr.toNat + tag.size) : load32 memory' p = load32 memory p := by
  have hfits : tag.addr.toNat + tag.size < 2 ^ 32 := tag.fits
  have hbyte : ∀ i < 4, memory' (p + BitVec.ofNat 32 i) = memory (p + BitVec.ofNat 32 i) := by
    intro i hi
    have hnum : (p + BitVec.ofNat 32 i).toNat = p.toNat + i := by
      rw [BitVec.toNat_add, BitVec.toNat_ofNat]
      omega
    obtain ⟨j, hj, heq⟩ := tag.eq_byte (p := p + BitVec.ofNat 32 i) (by omega) (by omega)
    rw [heq]
    exact h j hj
  unfold load32
  rw [hbyte 0 (by decide), hbyte 1 (by decide), hbyte 2 (by decide), hbyte 3 (by decide)]

/-- The same bytes have the same entry size. -/
theorem MmapTag.SameBytes.entrySize_eq (h : tag.SameBytes memory') :
    mmapEntrySize memory' tag.addr = mmapEntrySize memory tag.addr := by
  have hfits : tag.addr.toNat + tag.size < 2 ^ 32 := tag.fits
  have hsize : 16 ≤ tag.size := BitVec.le_def.mp tag.size_ge
  have hnum : (tag.addr + 8#32).toNat = tag.addr.toNat + 8 := by
    rw [BitVec.toNat_add, show (8#32).toNat = 8 from rfl]
    omega
  exact h.load32_eq (by omega) (by omega)

/-- An entry that lies in the tag. -/
theorem MmapTag.SameBytes.entry_eq (h : tag.SameBytes memory') (hle : tag.addr.toNat ≤ p.toNat)
    (hlt : p.toNat + 24 ≤ tag.addr.toNat + tag.size) : mmapEntry memory' p = mmapEntry memory p := by
  have hfits : tag.addr.toNat + tag.size < 2 ^ 32 := tag.fits
  have hword : ∀ i : ℕ, i + 4 ≤ 24 →
      load32 memory' (p + BitVec.ofNat 32 i) = load32 memory (p + BitVec.ofNat 32 i) := by
    intro i hi
    have hnum : (p + BitVec.ofNat 32 i).toNat = p.toNat + i := by
      rw [BitVec.toNat_add, BitVec.toNat_ofNat]
      omega
    exact h.load32_eq (by omega) (by omega)
  have hzero := hword 0 (by decide)
  rw [BitVec.add_zero] at hzero
  have height : p + 8#32 + BitVec.ofNat 32 4 = p + BitVec.ofNat 32 12 := BitVec.add_assoc ..
  unfold mmapEntry load64
  rw [hzero, hword 4 (by decide), height, hword 12 (by decide), show p + 8#32 = p + BitVec.ofNat 32 8 from rfl,
    hword 8 (by decide), show p + 16#32 = p + BitVec.ofNat 32 16 from rfl, hword 16 (by decide)]

end

/-! ### A loop over the entries -/

/-- The entries of a list, one after the other, up to one that ends the loop. -/
def foldEntries {α ρ : Type} (step : Mb2MmapEntry → α → ρ ⊕ α) : List Mb2MmapEntry → α → ρ ⊕ α
  | [], acc => .inr acc
  | e :: es, acc =>
      match step e acc with
      | .inl a => .inl a
      | .inr a => foldEntries step es a

section Loop
variable {α ρ : Type} {W : EntryWalk α ρ} {acc : α} {memory : U32 → U8}

/-- **Entries in two parts**: the second is reached when the first does not end the loop. -/
theorem foldEntries_append {step : Mb2MmapEntry → α → ρ ⊕ α} (es es' : List Mb2MmapEntry) :
    foldEntries step (es ++ es') acc =
      (foldEntries step es acc).elim .inl fun a => foldEntries step es' a := by
  induction es generalizing acc with
  | nil => rfl
  | cons e es ih =>
    rw [List.cons_append, foldEntries, foldEntries]
    rcases step e acc with a | a
    · rfl
    · exact ih

/-- One more entry: the step on what is read at its address. -/
theorem foldEntries_take_succ {step : Mb2MmapEntry → α → ρ ⊕ α} (tag : MmapTag memory) {k : ℕ} {p : U32}
    {a : α} (hk : k < tag.count) (hp : p.toNat = tag.entryAddr k)
    (ha : foldEntries step (tag.entries.take k) acc = .inr a) :
    foldEntries step (tag.entries.take (k + 1)) acc = step (mmapEntry memory p) a := by
  rw [List.take_add_one, tag.entries_getElem? hk hp, foldEntries_append, ha]
  show foldEntries step [mmapEntry memory p] a = _
  rw [foldEntries]
  rcases step (mmapEntry memory p) a <;> rfl

/-- **The loop leaves the tag alone**: after the first entries its bytes are what they were. -/
def MmapTag.KeptBy (tag : MmapTag memory) (W : EntryWalk α ρ) (acc : α) : Prop :=
  ∀ k a, foldEntries W.step (tag.entries.take k) acc = .inr a → tag.SameBytes (W.read a)

variable (tag : MmapTag memory)

/-- The loop stands at an entry of the tag, or behind them, with what the entries before it have made. -/
def AtEntry (W : EntryWalk α ρ) (acc : α) (k : ℕ) (s : U32 × α) : Prop :=
  k ≤ tag.count ∧ s.1.toNat = tag.entryAddr k ∧ foldEntries W.step (tag.entries.take k) acc = .inr s.2

/-- The loop starts at the first entry. -/
theorem atEntry_zero : AtEntry tag W acc 0 (tag.addr + 16#32, acc) := by
  have hle := tag.entryAddr_le (Nat.zero_le _)
  have hfits : tag.addr.toNat + tag.size < 2 ^ 32 := tag.fits
  refine ⟨Nat.zero_le _, ?_, rfl⟩
  unfold MmapTag.entryAddr at hle ⊢
  rw [BitVec.toNat_add, show (16#32).toNat = 16 from rfl]
  omega

/-- The loop over the entries of a tag, whose end is computed before it. -/
def MmapTag.loop (W : EntryWalk α ρ) : WhileLoop (U32 × α) ρ :=
  mmapEntryLoop W tag.addr (tag.addr + tagSize memory tag.addr)

variable {tag} {k : ℕ} {s s' : U32 × α}

/-- The entry at which the loop stands is read as it was. -/
theorem AtEntry.entry_eq (h : AtEntry tag W acc k s) (hkept : tag.KeptBy W acc) (hk : k < tag.count) :
    mmapEntry (W.read s.2) s.1 = mmapEntry memory s.1 := by
  obtain ⟨-, hs, hfold⟩ := h
  have hle := tag.entryAddr_le (Nat.succ_le_of_lt hk)
  have hsize := tag.entrySize_ge'
  rw [tag.entryAddr_succ] at hle
  refine (hkept k s.2 hfold).entry_eq ?_ (by omega)
  rw [hs, MmapTag.entryAddr]
  omega

/-- The test is passed at the entries of the tag, and behind them when its sum wraps. -/
theorem AtEntry.test_iff (h : AtEntry tag W acc k s) (hkept : tag.KeptBy W acc) :
    (tag.loop W).test s = true ↔ k < tag.count ∨ ¬ tag.StaysBelow := by
  obtain ⟨hk, hs, hfold⟩ := h
  have hfits : tag.addr.toNat + tag.size < 2 ^ 32 := tag.fits
  have hle := tag.entryAddr_le hk
  have hes : tag.entrySize < 2 ^ 32 := (mmapEntrySize memory tag.addr).isLt
  have htest : (tag.loop W).test s = true ↔
      (tag.entryAddr k + tag.entrySize) % 2 ^ 32 ≤ tag.addr.toNat + tag.size := by
    refine decide_eq_true_iff.trans ?_
    rw [(hkept k s.2 hfold).entrySize_eq, BitVec.le_def, BitVec.toNat_add, BitVec.toNat_add, hs]
    exact iff_of_eq (congrArg (_ ≤ ·) (Nat.mod_eq_of_lt hfits))
  rw [htest, ← tag.entryAddr_succ, MmapTag.StaysBelow]
  have hsucc := tag.entryAddr_succ k
  rcases hk.lt_or_eq with hlt | rfl
  · have hle' : tag.entryAddr (k + 1) ≤ _ := tag.entryAddr_le hlt
    -- inside the tag the sum does not wrap
    rw [Nat.mod_eq_of_lt (by omega)]
    exact iff_of_true hle' (.inl hlt)
  · -- behind the last entry it is too large, unless it wraps
    have hlt := tag.lt_entryAddr
    omega

/-- What the body does at an entry of the tag. -/
theorem AtEntry.body_eq (h : AtEntry tag W acc k s) (hkept : tag.KeptBy W acc) (hk : k < tag.count) :
    (tag.loop W).body s = (foldEntries W.step (tag.entries.take (k + 1)) acc).map id
      fun a => (s.1 + mmapEntrySize (W.read a) tag.addr, a) := by
  rw [foldEntries_take_succ tag hk h.2.1 h.2.2, ← h.entry_eq hkept hk]
  rfl

/-- One round inside the tag. -/
theorem AtEntry.next (h : AtEntry tag W acc k s) (hkept : tag.KeptBy W acc) (hk : k < tag.count)
    (hn : (tag.loop W).Next s s') : AtEntry tag W acc (k + 1) s' := by
  have hbody := (h.body_eq hkept hk).symm.trans hn.2
  rcases hfold : foldEntries W.step (tag.entries.take (k + 1)) acc with a | a
  · rw [hfold] at hbody
    -- an entry that ends the loop has no next round
    exact absurd hbody Sum.inl_ne_inr
  · rw [hfold] at hbody
    obtain rfl := Sum.inr.inj hbody
    have hle := tag.entryAddr_le (Nat.succ_le_of_lt hk)
    have hfits : tag.addr.toNat + tag.size < 2 ^ 32 := tag.fits
    refine ⟨hk, ?_, hfold⟩
    dsimp only
    rw [(hkept _ a hfold).entrySize_eq, BitVec.toNat_add, h.2.1]
    rw [tag.entryAddr_succ] at hle ⊢
    exact Nat.mod_eq_of_lt (hle.trans_lt hfits)

/-- **The loop does not leave the tag**: the last sum does not wrap, or an entry of the tag ends the loop. -/
def MmapTag.KeepsInside (tag : MmapTag memory) (step : Mb2MmapEntry → α → ρ ⊕ α) (acc : α) : Prop :=
  tag.StaysBelow ∨ ∃ r, foldEntries step tag.entries acc = .inl r

/-- Then the body is entered at the entries of the tag only. -/
theorem AtEntry.lt_count (h : AtEntry tag W acc k s) (hkept : tag.KeptBy W acc)
    (hC : tag.KeepsInside W.step acc) (ht : (tag.loop W).test s = true) : k < tag.count := by
  rcases (h.test_iff hkept).mp ht with hlt | hwrap
  · exact hlt
  rcases hC with hbelow | ⟨a, ha⟩
  · exact absurd hbelow hwrap
  · refine h.1.lt_of_ne fun hk => ?_
    have hfold := h.2.2
    rw [hk, ← tag.length_entries, List.take_length, ha] at hfold
    exact absurd hfold Sum.inl_ne_inr

/-- Inside the tag the loop comes to every entry that the entries before it let it come to. -/
theorem comes_of_foldEntries (hkept : tag.KeptBy W acc) {a : α} (hk : k ≤ tag.count)
    (ha : foldEntries W.step (tag.entries.take k) acc = .inr a) :
    ∃ s, (tag.loop W).Comes (tag.addr + 16#32, acc) s ∧ AtEntry tag W acc k s := by
  induction k generalizing a with
  | zero => exact ⟨_, .refl, atEntry_zero tag⟩
  | succ k ih =>
    obtain ⟨b, hb⟩ : ∃ b, foldEntries W.step (tag.entries.take k) acc = .inr b := by
      rw [List.take_succ_eq_append_getElem (tag.length_entries.symm ▸ hk), foldEntries_append] at ha
      rcases hb : foldEntries W.step (tag.entries.take k) acc with b | b
      · rw [hb] at ha
        exact absurd ha Sum.inl_ne_inr
      · exact ⟨b, rfl⟩
    obtain ⟨s, hc, hs⟩ := ih (Nat.le_of_succ_le hk) hb
    have hbody := hs.body_eq hkept hk
    rw [ha] at hbody
    have hn : (tag.loop W).Next s (s.1 + mmapEntrySize (W.read a) tag.addr, a) :=
      ⟨(hs.test_iff hkept).mpr (.inl hk), hbody⟩
    exact ⟨_, hc.tail hn, hs.next hkept hk hn⟩

/-- **A loop over the entries reads the tag only exactly when it does not leave the tag.** -/
theorem mmapEntryLoop_readBy_iff (hkept : tag.KeptBy W acc) :
    tag.ReadBy (fun n => (tag.loop W).run n (tag.addr + 16#32, acc)) ↔ tag.KeepsInside W.step acc := by
  constructor
  · intro h
    by_contra hC
    rw [MmapTag.KeepsInside, not_or] at hC
    obtain ⟨a, ha⟩ : ∃ a, foldEntries W.step tag.entries acc = .inr a := by
      rcases ha : foldEntries W.step tag.entries acc with a | a
      · exact absurd ⟨a, ha⟩ hC.2
      · exact ⟨a, rfl⟩
    rw [← List.take_length (l := tag.entries), tag.length_entries] at ha
    obtain ⟨s, hc, hs⟩ := comes_of_foldEntries hkept le_rfl ha
    -- the body is entered behind the entries
    obtain ⟨n, hn⟩ := WhileLoop.exists_mem_entered_iff.mpr ⟨hc, (hs.test_iff hkept).mpr (.inr hC.1)⟩
    have hinside := (h.entry_inside n s hn).2
    rw [hs.2.1, ← tag.entryAddr_succ] at hinside
    exact absurd hinside (not_le.mpr tag.lt_entryAddr)
  · intro hC
    -- the entries that are left decrease
    let m : U32 × α → ℕ := fun s => (tag.addr.toNat + tag.size - s.1.toNat) / tag.entrySize
    have hm : ∀ k s, AtEntry tag W acc k s → m s = tag.count - k := fun k s hs => by
      show (_ - s.1.toNat) / _ = _
      rw [hs.2.1, tag.rest_div hs.1]
    have hstep : ∀ s s', (∃ k, AtEntry tag W acc k s) → (tag.loop W).Next s s' →
        (∃ k, AtEntry tag W acc k s') ∧ m s' < m s := by
      rintro s s' ⟨k, hs⟩ hn
      have hk := hs.lt_count hkept hC hn.1
      have hs' := hs.next hkept hk hn
      rw [hm _ _ hs, hm _ _ hs']
      exact ⟨⟨k + 1, hs'⟩, by omega⟩
    refine ⟨fun n s hs => ?_, ?_, fun n => ?_⟩
    · obtain ⟨hc, ht⟩ := WhileLoop.exists_mem_entered_iff.mp ⟨n, hs⟩
      obtain ⟨k, hat⟩ := hc.invariant ⟨0, atEntry_zero tag⟩ fun s s' hs hn => (hstep s s' hs hn).1
      have hle : tag.entryAddr (k + 1) ≤ _ := tag.entryAddr_le (hat.lt_count hkept hC ht)
      rw [hat.2.1]
      rw [tag.entryAddr_succ] at hle
      refine ⟨?_, hle⟩
      unfold MmapTag.entryAddr
      omega
    · obtain ⟨r, hr⟩ := WhileLoop.exists_result_of_measure m ⟨0, atEntry_zero tag⟩ hstep
      exact ⟨_, r, hr⟩
    · have hle := WhileLoop.length_entered_le m ⟨0, atEntry_zero tag⟩
        (fun s hs ht => by
          obtain ⟨k, hs⟩ := hs
          have hk := hs.lt_count hkept hC ht
          rw [hm k s hs]
          omega) hstep n
      rw [hm 0 _ (atEntry_zero tag)] at hle
      exact hle.trans (Nat.div_le_div_right (Nat.sub_le ..))

/-- **Then the loop makes what the entries of the tag make.** -/
theorem mmapEntryLoop_result (hkept : tag.KeptBy W acc) (hC : tag.KeepsInside W.step acc) :
    ∃ n, ((tag.loop W).run n (tag.addr + 16#32, acc)).result =
      some ((foldEntries W.step tag.entries acc).elim id W.exit) := by
  obtain ⟨n, r, hr⟩ := ((mmapEntryLoop_readBy_iff hkept).mpr hC).ends
  refine ⟨n, hr.trans (congrArg some ?_)⟩
  obtain ⟨s, hc, he⟩ := WhileLoop.exists_result_iff.mp ⟨n, hr⟩
  obtain ⟨k, hat⟩ : ∃ k, AtEntry tag W acc k s := by
    refine hc.invariant (I := fun s => ∃ k, AtEntry tag W acc k s) ⟨0, atEntry_zero tag⟩ ?_
    rintro s s' ⟨k, hs⟩ hn
    exact ⟨k + 1, hs.next hkept (hs.lt_count hkept hC hn.1) hn⟩
  rcases he with ⟨ht, hb⟩ | ⟨ht, rfl⟩
  · have hbody := (hat.body_eq hkept (hat.lt_count hkept hC ht)).symm.trans hb
    rcases hfold : foldEntries W.step (tag.entries.take (k + 1)) acc with a | a
    · rw [hfold] at hbody
      -- an entry has ended the loop
      obtain rfl := Sum.inl.inj hbody
      rw [← List.take_append_drop (k + 1) tag.entries, foldEntries_append, hfold]
      rfl
    · rw [hfold] at hbody
      exact absurd hbody Sum.inr_ne_inl
  · -- the test has failed, so all entries were read
    have hk : k = tag.count := by
      refine hat.1.eq_of_not_lt fun hlt => ?_
      rw [(hat.test_iff hkept).mpr (.inl hlt)] at ht
      exact Bool.noConfusion ht
    have hfold := hat.2.2
    rw [hk, ← tag.length_entries, List.take_length] at hfold
    rw [hfold]
    rfl

/-- A loop that no entry ends. -/
theorem foldEntries_inr (f : Mb2MmapEntry → α → α) (es : List Mb2MmapEntry) (acc : α) :
    foldEntries (fun e a => (.inr (f e a) : ρ ⊕ α)) es acc = .inr (es.foldl (fun a e => f e a) acc) := by
  induction es generalizing acc with
  | nil => rfl
  | cons e es ih => exact ih _

/-- A loop that ends at no entry stays inside exactly when the last sum does not wrap. -/
theorem keepsInside_inr_iff (tag : MmapTag memory) (f : Mb2MmapEntry → α → α) (acc : α) :
    tag.KeepsInside (fun e a => (.inr (f e a) : ρ ⊕ α)) acc ↔ tag.StaysBelow := by
  rw [MmapTag.KeepsInside, foldEntries_inr]
  exact or_iff_left fun ⟨_, h⟩ => Sum.inr_ne_inl h

end Loop

/-! ### The loop that writes bitmaps -/

section
variable {m : PhysicalMemory} {kernel info : BootBlock} {l : RegionLayout}
  {q q' : List PmmRegion × PhysicalMemory} {a : U32}

/-- A byte of physical memory is one of the tag. -/
def MmapTag.Has (tag : MmapTag (loadByte m)) (a : U32) : Prop :=
  ∃ j < tag.size, bootTranslate (tag.addr + BitVec.ofNat 32 j) = some a

/-- The tag lies in the boot information. -/
def MmapTag.InInfo (tag : MmapTag (loadByte m)) (info : BootBlock) : Prop :=
  ∀ a, tag.Has a → info.start.toNat ≤ a.toNat ∧ a.toNat < info.stop.toNat

/-- What the pointer of the region of a layout shows. -/
def bitmapShows (l : RegionLayout) (a : U32) : Prop :=
  ∃ k < l.bitmapStorageBytes.toNat, bootTranslate (physToVirt l.managedStart + BitVec.ofNat 32 k) = some a

/-- **The bitmaps whose pointer does not reach their storage miss the tag**, and `memfill_u8` does not come
to memory that is not shown. -/
def MmapTag.MissedByHighBitmaps (tag : MmapTag (loadByte m)) (kernel info : BootBlock) : Prop :=
  ∀ l ∈ bitmapLayouts tag.entries kernel info, ¬ l.StoredLow →
    BootMapped (physToVirt l.managedStart) l.bitmapStorageBytes.toNat ∧ ∀ a, bitmapShows l a → ¬ tag.Has a

/-- The entry that finds `g_regions` full is one of the tag. -/
def MmapTag.FillsRegions (tag : MmapTag (loadByte m)) (kernel info : BootBlock) : Prop :=
  ∃ q, foldEntries (bitmapStep kernel info) tag.entries ([], m) = .inl (some q)

/-- The loop that frees the pages behind the bitmap writes the storage only. -/
theorem freeTail_frame {n i : ℕ} {r : PmmRegion} (hn : i + n ≤ 8 * r.bitmapStorageBytes.toNat)
    (ha : ∀ k < r.bitmapStorageBytes.toNat, bootTranslate (r.bitmap + BitVec.ofNat 32 k) ≠ some a) :
    (PmmRegion.freeTail n i r m).2 a = m a := by
  induction n generalizing i r m with
  | zero => rfl
  | succ n ih =>
    refine (ih (r := { r with free := r.free + 1#32 }) ?_ ha).trans (storeByte_of_ne (ha (i >>> 3) ?_))
    · show i + 1 + n ≤ 8 * r.bitmapStorageBytes.toNat
      omega
    · rw [Nat.shiftRight_eq_div_pow]
      omega

/-- **`pmm_add_region` writes what the pointer shows.** -/
theorem pmmAddRegion_frame (hshape : l.Shape) (h : InMemory.pmmAddRegion l q = some q')
    (ha : ¬ bitmapShows l a) : q'.2 a = q.2 a := by
  have hbytes := hshape.bytes
  have hle := hshape.bytes_le
  have hless := hshape.storage_lt
  have hpages := hshape.pages_lt
  have hlt := hshape.bitmapPages_lt
  obtain ⟨⟨r, m'⟩, hinit, rfl⟩ := Option.map_eq_some_iff.mp h
  obtain ⟨m₁, hfill, heq⟩ := Option.map_eq_some_iff.mp hinit
  have ha' : ∀ k < l.bitmapStorageBytes.toNat,
      bootTranslate (physToVirt l.managedStart + BitVec.ofNat 32 k) ≠ some a := fun k hk h => ha ⟨k, hk, h⟩
  have hm' : m' = (PmmRegion.freeTail (l.pages.toNat - l.bitmapPages.toNat) l.bitmapPages.toNat
      { InMemory.regionOf l with free := 0#32 } m₁).2 := (congrArg Prod.snd heq).symm
  rw [hm']
  -- the fill and the loop behind it, both through the pointer
  refine (freeTail_frame (r := { InMemory.regionOf l with free := 0#32 }) ?_ ha').trans
    (fillBytes_of_forall_ne ?_ hfill ha')
  · show _ ≤ 8 * l.bitmapStorageBytes.toNat
    omega
  · show l.bitmapStorageBytes.toNat ≤ 2 ^ 30
    omega

/-- It does not fault when the storage is shown. -/
theorem pmmAddRegion_isSome (h : BootMapped (physToVirt l.managedStart) l.bitmapStorageBytes.toNat) :
    ∃ q', InMemory.pmmAddRegion l q = some q' := by
  have hfill : fillBytes q.2 (InMemory.regionOf l).bitmap (InMemory.regionOf l).bitmapStorageBytes.toNat
      (fun _ => 0xFF#8) ≠ none := by
    have hmapped : BootMapped (InMemory.regionOf l).bitmap (InMemory.regionOf l).bitmapStorageBytes.toNat := h
    unfold fillBytes
    rw [if_pos hmapped]
    exact Option.some_ne_none _
  obtain ⟨m₁, hm₁⟩ := Option.ne_none_iff_exists'.mp hfill
  exact ⟨_, by unfold InMemory.pmmAddRegion PmmRegion.initAndFreeTail; rw [hm₁]; rfl⟩

/-- A bitmap that is stored between 1 MiB and 1 GiB is reached through its pointer, clear of the boot
information. -/
theorem bitmapShows_low (hlow : l.StoredLow) (h : bitmapShows l a) :
    l.managedStart.toNat ≤ a.toNat ∧ a.toNat < l.managedStart.toNat + l.bitmapStorageBytes.toNat := by
  obtain ⟨k, hk, heq⟩ := h
  have hstop := hlow.stop_le
  rw [bootTranslate_physToVirt (by omega)] at heq
  obtain rfl := Option.some.inj heq
  rw [BitVec.toNat_add, BitVec.toNat_ofNat]
  omega

/-- All of a bitmap between 1 MiB and 1 GiB is shown. -/
theorem bootMapped_of_low (hlow : l.StoredLow) :
    BootMapped (physToVirt l.managedStart) l.bitmapStorageBytes.toNat := by
  have hstop := hlow.stop_le
  intro k hk
  rw [bootTranslate_physToVirt (by omega)]
  rfl

/-- **No bitmap that is written meets the tag.** -/
theorem MmapTag.layout_misses {tag : MmapTag (loadByte m)} (hinfo : tag.InInfo info)
    (hmiss : tag.MissedByHighBitmaps kernel info) (hl : l ∈ bitmapLayouts tag.entries kernel info) :
    BootMapped (physToVirt l.managedStart) l.bitmapStorageBytes.toNat ∧ ∀ a, bitmapShows l a → ¬ tag.Has a := by
  by_cases hlow : l.StoredLow
  · -- below 1 GiB the layout keeps clear of the information
    refine ⟨bootMapped_of_low hlow, fun a hshows hhas => ?_⟩
    obtain ⟨-, e, -, -, hlayout, -⟩ := mem_take_filterMap.mp hl
    obtain ⟨hle, hlt⟩ := bitmapShows_low hlow hshows
    have hstop := hlow.stop_le
    exact entryLayout_info hlayout (by omega) hle hlt (hinfo a hhas)
  · exact hmiss l hl hlow

/-- The entries before one that is read have made as many regions as they have layouts. -/
structure Makes (m : PhysicalMemory) (kernel info : BootBlock) (tag : MmapTag (loadByte m)) (k : ℕ)
    (q : List PmmRegion × PhysicalMemory) : Prop where
  length : q.1.length = ((tag.entries.take k).filterMap (entryLayout kernel info)).length
  bytes : ∀ a, tag.Has a → q.2 a = m a

/-- One entry of the tag. -/
theorem Makes.step {tag : MmapTag (loadByte m)} {k : ℕ} {e : Mb2MmapEntry} (h : Makes m kernel info tag k q)
    (hinfo : tag.InInfo info) (hmiss : tag.MissedByHighBitmaps kernel info) (he : tag.entries[k]? = some e) :
    bitmapStep kernel info e q = .inl (some q) ∨
      ∃ q', bitmapStep kernel info e q = .inr q' ∧ Makes m kernel info tag (k + 1) q' := by
  have htake : (tag.entries.take (k + 1)).filterMap (entryLayout kernel info) =
      (tag.entries.take k).filterMap (entryLayout kernel info) ++ (entryLayout kernel info e).toList := by
    rw [List.take_add_one, he, List.filterMap_append]
    cases hlayout : entryLayout kernel info e <;> simp [hlayout]
  have hlayout : entryLayout kernel info e = (clipEntry e).bind (pmmComputeRegionLayout kernel info) := rfl
  unfold bitmapStep
  cases hclip : clipEntry e with
  | none =>
    rw [hclip, Option.bind_none] at hlayout
    -- the entry is skipped
    refine .inr ⟨q, rfl, ?_, h.bytes⟩
    rw [htake, hlayout, Option.toList_none, List.append_nil]
    exact h.length
  | some usable =>
    rw [hclip, Option.bind_some] at hlayout
    dsimp only
    by_cases hfull : q.1.length ≥ pmmMaxRegions
    · exact .inl (if_pos hfull)
    rw [if_neg hfull]
    right
    cases hl : pmmComputeRegionLayout kernel info usable with
    | none =>
      rw [hl] at hlayout
      -- there is no room in it for a region
      refine ⟨q, rfl, ?_, h.bytes⟩
      rw [htake, hlayout, Option.toList_none, List.append_nil]
      exact h.length
    | some l =>
      rw [hl] at hlayout
      -- the table is not full, so its layout is one of those that are made
      have hmem : l ∈ bitmapLayouts tag.entries kernel info := by
        obtain ⟨hk, rfl⟩ := List.getElem?_eq_some_iff.mp he
        refine mem_take_filterMap.mpr ⟨tag.entries.take k, _, tag.entries.drop (k + 1), ?_, hlayout, ?_⟩
        · rw [List.getElem_cons_drop, List.take_append_drop]
        · rw [← h.length]
          exact Nat.not_le.mp hfull
      obtain ⟨hmapped, hmisses⟩ := MmapTag.layout_misses hinfo hmiss hmem
      obtain ⟨q', hadd⟩ := pmmAddRegion_isSome (q := q) hmapped
      dsimp only
      rw [hadd]
      refine ⟨q', rfl, ?_, fun a ha => ?_⟩
      · obtain ⟨r, -, rfl⟩ := Option.map_eq_some_iff.mp hadd
        rw [htake, hlayout, Option.toList_some, List.length_append, List.length_append, h.length]
        rfl
      · rw [pmmAddRegion_frame (entryLayout_shape hlayout) hadd fun hshows => hmisses a hshows ha]
        exact h.bytes a ha

/-- All entries before one. -/
theorem makes_of_foldEntries {tag : MmapTag (loadByte m)} (hinfo : tag.InInfo info)
    (hmiss : tag.MissedByHighBitmaps kernel info) (k : ℕ) :
    (∃ q, foldEntries (bitmapStep kernel info) (tag.entries.take k) ([], m) = .inl (some q)) ∨
      ∃ q, foldEntries (bitmapStep kernel info) (tag.entries.take k) ([], m) = .inr q ∧
        Makes m kernel info tag k q := by
  induction k with
  | zero => exact .inr ⟨_, rfl, rfl, fun _ _ => rfl⟩
  | succ k ih =>
    rw [List.take_add_one, foldEntries_append]
    rcases ih with ⟨q, hq⟩ | ⟨q, hq, hmakes⟩
    · exact .inl ⟨q, by rw [hq]; rfl⟩
    rw [hq]
    show (∃ q', foldEntries _ tag.entries[k]?.toList q = _) ∨
      ∃ q', foldEntries _ tag.entries[k]?.toList q = _ ∧ _
    cases he : tag.entries[k]? with
    | none =>
      refine .inr ⟨q, rfl, ?_, hmakes.bytes⟩
      rw [List.take_add_one, he, Option.toList_none, List.append_nil]
      exact hmakes.length
    | some e =>
      rw [Option.toList_some, foldEntries]
      rcases hmakes.step hinfo hmiss he with hfull | ⟨q', hstep, hmakes'⟩
      · exact .inl ⟨q, by rw [hfull]⟩
      · exact .inr ⟨q', by rw [hstep]; rfl, hmakes'⟩

/-- **The loop of `pmm_bitmap_init` leaves the tag alone.** -/
theorem keptBy_bitmapWalk {tag : MmapTag (loadByte m)} (hinfo : tag.InInfo info)
    (hmiss : tag.MissedByHighBitmaps kernel info) : tag.KeptBy (bitmapWalk kernel info) ([], m) := by
  intro k q hq j hj
  rcases makes_of_foldEntries hinfo hmiss k with ⟨q', hq'⟩ | ⟨q', hq', hmakes⟩
  · exact absurd (hq'.symm.trans hq) Sum.inl_ne_inr
  · -- what is read are bytes of the tag
    obtain rfl := Sum.inr.inj (hq'.symm.trans hq)
    exact loadByte_congr fun a ha => hmakes.bytes a ⟨j, hj, ha⟩

/-- An entry that ends it has found the table full. -/
theorem fillsRegions_iff {tag : MmapTag (loadByte m)} (hinfo : tag.InInfo info)
    (hmiss : tag.MissedByHighBitmaps kernel info) :
    (∃ r, foldEntries (bitmapStep kernel info) tag.entries ([], m) = .inl r) ↔
      tag.FillsRegions kernel info := by
  refine ⟨fun ⟨r, hr⟩ => ?_, fun ⟨q, hq⟩ => ⟨_, hq⟩⟩
  have hmakes := makes_of_foldEntries hinfo hmiss tag.entries.length
  rw [List.take_length] at hmakes
  rcases hmakes with hfull | ⟨q, hq, -⟩
  · exact hfull
  · exact absurd (hr.symm.trans hq) Sum.inl_ne_inr

/-- The entries make the regions of the allocator. -/
theorem foldEntries_bitmapStep (es : List Mb2MmapEntry) (q : List PmmRegion × PhysicalMemory) :
    (foldEntries (bitmapStep kernel info) es q).elim id some =
      InMemory.bitmapAddRegions kernel info es q := by
  induction es generalizing q with
  | nil => rfl
  | cons e es ih =>
    rw [foldEntries, InMemory.bitmapAddRegions, bitmapStep]
    rcases clipEntry e with _ | usable
    · exact ih q
    dsimp only
    by_cases hfull : q.1.length ≥ pmmMaxRegions
    · rw [if_pos hfull, if_pos hfull]
      rfl
    rw [if_neg hfull, if_neg hfull]
    rcases pmmComputeRegionLayout kernel info usable with _ | l
    · exact ih q
    dsimp only
    rcases InMemory.pmmAddRegion l q with _ | q'
    · rfl
    · exact ih q'

end

/-! ### The three loops over a tag -/

/-- **A loop reads the entries of a tag only exactly under a condition**, and then it has the result `r`. -/
structure MmapTag.ReadsExactly {memory : U32 → U8} {α ρ : Type} (tag : MmapTag memory)
    (walk : ℕ → Rounds (U32 × α) ρ) (C : Prop) (r : ρ) : Prop where
  readBy_iff : tag.ReadBy walk ↔ C
  result : C → ∃ n, (walk n).result = some r

section
variable {α ρ : Type} {memory : U32 → U8} {tag : MmapTag memory} {acc : α} {C : Prop} {r : ρ}

/-- **The reading of a loop that keeps the tag**: exactly when it stays inside, and what it makes then. -/
theorem MmapTag.KeptBy.readsExactly {W : EntryWalk α ρ} (hkept : tag.KeptBy W acc)
    (hC : tag.KeepsInside W.step acc ↔ C) (hr : (foldEntries W.step tag.entries acc).elim id W.exit = r) :
    tag.ReadsExactly (fun n => (tag.loop W).run n (tag.addr + 16#32, acc)) C r := by
  refine ⟨(mmapEntryLoop_readBy_iff hkept).trans hC, fun h => ?_⟩
  rw [← hr]
  exact mmapEntryLoop_result hkept (hC.mpr h)

/-- A loop that writes nothing and is ended by no entry. -/
theorem readsExactly_inr (tag : MmapTag memory) (f : Mb2MmapEntry → α → α) (acc : α) :
    tag.ReadsExactly
      (fun n => (tag.loop ⟨fun e a => .inr (f e a), id, fun _ => memory⟩).run n (tag.addr + 16#32, acc))
      tag.StaysBelow (tag.entries.foldl (fun a e => f e a) acc) := by
  have hkept : tag.KeptBy (⟨fun e a => .inr (f e a), id, fun _ => memory⟩ : EntryWalk α α) acc :=
    fun _ _ _ _ _ => rfl
  refine hkept.readsExactly (keepsInside_inr_iff tag f acc) ?_
  rw [foldEntries_inr]
  rfl

/-- The region that `mmap_dump_and_pick_best` keeps of the entries of a tag, and the lines. -/
def MmapTag.dumped (tag : MmapTag memory) : Option AvailRegion × List MmapLine :=
  let s := tag.entries.foldl (fun s e => mmapStep e s) (⟨0#64, 0#64, 0#64⟩,
    [.memoryMap (tagSize memory tag.addr) (mmapEntrySize memory tag.addr) (mmapEntryVersion memory tag.addr)])
  (some s.1, s.2)

/-- The checks in front of the loop of `mmap_dump_and_pick_best` are passed. -/
theorem mmapDumpAndPickBest_eq (tag : MmapTag memory) :
    mmapDumpAndPickBest memory tag.addr = fun n =>
      ⟨(mmapDumpEntries memory tag.addr n).entered,
        (mmapDumpEntries memory tag.addr n).result.map fun s => (some s.1, s.2)⟩ := by
  funext n
  exact (if_neg (BitVec.not_lt.mpr tag.size_ge)).trans (if_neg (BitVec.not_lt.mpr tag.entrySize_ge))

/-- A result in another form. -/
theorem MmapTag.ReadsExactly.map {ρ' : Type} {walk : ℕ → Rounds (U32 × α) ρ}
    (h : tag.ReadsExactly walk C r) (f : ρ → ρ') :
    tag.ReadsExactly (fun n => ⟨(walk n).entered, (walk n).result.map f⟩) C (f r) := by
  refine ⟨⟨fun h' => ?_, fun hC => ?_⟩, fun hC => ?_⟩
  · obtain ⟨n, x, hx⟩ := h'.ends
    obtain ⟨y, hy, -⟩ := Option.map_eq_some_iff.mp hx
    exact h.readBy_iff.mp ⟨h'.entry_inside, ⟨n, y, hy⟩, h'.rounds_le⟩
  · have h' := h.readBy_iff.mpr hC
    obtain ⟨n, y, hy⟩ := h'.ends
    exact ⟨h'.entry_inside, ⟨n, f y, congrArg (Option.map f) hy⟩, h'.rounds_le⟩
  · obtain ⟨n, hn⟩ := h.result hC
    exact ⟨n, congrArg (Option.map f) hn⟩

end

/-- **The loops over a memory map read entries inside the tag exactly when the last sum does not wrap**, and
make of them what the initialisations make of a list of entries. The loop of the bitmap allocator also stays
inside when its table of regions is full before; of the tag it is assumed that no bitmap is written over it. -/
theorem mmapEntries_readBy_iff (kernel info : BootBlock) :
    (∀ (m : PhysicalMemory) (tag : MmapTag (loadByte m)), tag.InInfo info →
      tag.MissedByHighBitmaps kernel info →
      tag.ReadsExactly (pmmBitmapEntries m kernel info tag.addr)
        (tag.StaysBelow ∨ tag.FillsRegions kernel info)
        (InMemory.bitmapAddRegions kernel info tag.entries ([], m))) ∧
    (∀ (memory : U32 → U8) (tag : MmapTag memory),
      tag.ReadsExactly (pmmBuddyEntries memory tag.addr) tag.StaysBelow (buddyBestRegion tag.entries)) ∧
    ∀ (memory : U32 → U8) (tag : MmapTag memory),
      tag.ReadsExactly (mmapDumpAndPickBest memory tag.addr) tag.StaysBelow tag.dumped := by
  refine ⟨fun m tag hinfo hmiss => ?_, fun memory tag => readsExactly_inr tag _ _,
    fun memory tag => ?_⟩
  · exact (keptBy_bitmapWalk hinfo hmiss).readsExactly (or_congr_right (fillsRegions_iff hinfo hmiss))
      (foldEntries_bitmapStep _ _)
  · rw [mmapDumpAndPickBest_eq]
    exact (readsExactly_inr tag mmapStep _).map fun s => (some s.1, s.2)

/-- The bytes of a tag whose pointer is `PHYS_TO_VIRT` of a physical address. -/
theorem MmapTag.Has.bounds {m : PhysicalMemory} {tag : MmapTag (loadByte m)} {p a : U32} (h : tag.Has a)
    (hp : tag.addr = physToVirt p) (hlow : p.toNat + tag.size ≤ 2 ^ 30) :
    p.toNat ≤ a.toNat ∧ a.toNat < p.toNat + tag.size := by
  obtain ⟨j, hj, heq⟩ := h
  rw [hp, bootTranslate_physToVirt (by omega)] at heq
  obtain rfl := Option.some.inj heq
  rw [BitVec.toNat_add, BitVec.toNat_ofNat]
  omega

/-- A memory map at `0x200008`, in the boot information: 15 MiB from 1 MiB on, and the range
`[0x40300000, 0x41000000)`, whose bitmap is written at `0x300000`. -/
def wrappedEntry : PhysicalMemory := fun a =>
  (bytesOf32 6#32 ++ bytesOf32 64#32 ++ bytesOf32 24#32 ++ bytesOf32 0#32 ++
    bytesOf32 0x100000#32 ++ bytesOf32 0#32 ++ bytesOf32 0xF00000#32 ++ bytesOf32 0#32 ++
    bytesOf32 1#32 ++ bytesOf32 0#32 ++
    bytesOf32 0x40300000#32 ++ bytesOf32 0#32 ++ bytesOf32 0xD00000#32 ++ bytesOf32 0#32 ++
    bytesOf32 1#32 ++ bytesOf32 0#32).getD (a - 0x200008#32).toNat 0#8

/-- The tag in it. -/
def wrappedEntryTag : MmapTag (loadByte wrappedEntry) := ⟨0xC0200008#32, by decide, by decide, by decide⟩

/-- Two entries, one of whose bitmaps is written 1 GiB below its storage. -/
theorem mmapEntries_readBy_iff_wrapped :
    wrappedEntryTag.ReadsExactly (pmmBitmapEntries wrappedEntry lowKernel lowInfo wrappedEntryTag.addr)
      (wrappedEntryTag.StaysBelow ∨ wrappedEntryTag.FillsRegions lowKernel lowInfo)
      (InMemory.bitmapAddRegions lowKernel lowInfo wrappedEntryTag.entries ([], wrappedEntry)) ∧
    wrappedEntryTag.StaysBelow := by
  have hsize : wrappedEntryTag.size = 64 := by decide
  have hbounds : ∀ a, wrappedEntryTag.Has a → 0x200008 ≤ a.toNat ∧ a.toNat < 0x200048 := by
    intro a ha
    have h := ha.bounds (p := 0x200008#32) (by decide) (by rw [hsize]; decide)
    rwa [hsize] at h
  refine ⟨(mmapEntries_readBy_iff lowKernel lowInfo).1 wrappedEntry wrappedEntryTag (fun a ha => ?_)
    fun l hl hlow => ?_, by unfold MmapTag.StaysBelow; decide⟩
  · have := hbounds a ha
    exact ⟨by simp [lowInfo]; omega, by simp [lowInfo]; omega⟩
  · have hhigh : ∀ l ∈ bitmapLayouts wrappedEntryTag.entries lowKernel lowInfo, ¬ l.StoredLow →
        l.managedStart = 0x40300000#32 ∧ l.bitmapStorageBytes = 0x1000#32 := by decide
    obtain ⟨hstart, hstorage⟩ := hhigh l hl hlow
    refine ⟨by rw [hstart, hstorage]; decide, fun a hshows ha => ?_⟩
    obtain ⟨k, hk, heq⟩ := hshows
    rw [hstorage] at hk
    rw [hstart] at heq
    have hwraps := bootTranslate_physToVirt_wraps (by simp; omega) (by simp at hk ⊢; omega) heq
    have := hbounds a ha
    simp at hk hwraps
    omega

/-- A memory map of 40 bytes at `0x200008`, in the boot information, whose entry size is `0xFFFFFFF0`. -/
def hugeEntry : PhysicalMemory := fun a =>
  (bytesOf32 6#32 ++ bytesOf32 40#32 ++ bytesOf32 0xFFFFFFF0#32).getD (a - 0x200008#32).toNat 0#8

/-- The tag in it. -/
def hugeEntryTag : MmapTag (loadByte hugeEntry) := ⟨0xC0200008#32, by decide, by decide, by decide⟩

/-- No entry lies in the tag, and each loop reads one. -/
theorem mmapEntries_outside :
    hugeEntryTag.InInfo lowInfo ∧
      ¬ hugeEntryTag.ReadBy (pmmBitmapEntries hugeEntry lowKernel lowInfo hugeEntryTag.addr) ∧
      ¬ hugeEntryTag.ReadBy (pmmBuddyEntries (loadByte hugeEntry) hugeEntryTag.addr) ∧
      ¬ hugeEntryTag.ReadBy (mmapDumpAndPickBest (loadByte hugeEntry) hugeEntryTag.addr) := by
  have htag : hugeEntryTag.size = 40 := by decide
  have hsize : hugeEntryTag.size / hugeEntryTag.entrySize = 0 := by decide
  refine ⟨fun a ha => ?_, fun h => ?_, fun h => ?_, fun h => ?_⟩
  · have h := ha.bounds (p := 0x200008#32) (by decide) (by rw [htag]; decide)
    rw [htag] at h
    exact ⟨by simp [lowInfo] at h ⊢; omega, by simp [lowInfo] at h ⊢; omega⟩
  · exact absurd (h.rounds_le 1) (by rw [hsize]; decide)
  · exact absurd (h.rounds_le 1) (by rw [hsize]; decide)
  · exact absurd (h.rounds_le 1) (by rw [hsize]; decide)

end Microkernel.Boot
