import Microkernel.Word
import Mathlib.Data.List.Basic

/-! # The memory map of the boot loader

What both backends of the physical memory manager read at boot: the entries of the Multiboot2 memory
map, where the kernel image ends, and where the Multiboot2 information lies; and their rounding to
pages.

* **`Mb2MmapEntry`, `BootBlock`** — an entry of the memory map of the boot loader, and a block of memory
  that is in use before the allocator starts.
* **`DisjointUsable`** — the entries of usable memory do not overlap, as the format has it.
* **`bootTranslate`** — the physical address that a pointer leads to through the page directory of
  `boot.asm`.
* **`PmmCall`** — `pmm_alloc_page` or `pmm_free_page`, whichever backend is behind them.
-/

namespace Microkernel.Pmm

/-- `uint64_t`. -/
abbrev U64 := BitVec 64

/-- `struct mb2_mmap_entry`. -/
structure Mb2MmapEntry where
  /-- Physical start address. -/
  addr : U64
  /-- Size in bytes. -/
  len : U64
  /-- Type 1 is usable memory. -/
  type : U32

/-- `PAGE_SIZE`. -/
def pageSize : U32 := 4096#32

/-- `align_up(v, a)`. -/
def alignUp (v a : U32) : U32 := (v + (a - 1#32)) &&& ~~~ (a - 1#32)

/-- `align_down(v, a)`. -/
def alignDown (v a : U32) : U32 := v &&& ~~~ (a - 1#32)

/-- The physical address that the boot directory gives for a virtual one: the first GiB is shown at its own
addresses and again from `KERNEL_VIRT_OFFSET` on, and nothing in between. -/
def bootTranslate (v : U32) : Option U32 :=
  if v < 0x40000000#32 then some v
  else if 0xC0000000#32 ≤ v then some (v - 0xC0000000#32)
  else none

/-- The kernel image or the Multiboot2 information in physical memory, inside the first GiB, which is
what `PHYS_TO_VIRT` reaches. -/
structure BootBlock where
  /-- First address. -/
  start : U32
  /-- First address behind it. -/
  stop : U32
  start_lt_stop : start < stop
  stop_le : stop.toNat ≤ 2 ^ 30

namespace Mb2MmapEntry

/-- The addresses of an entry. -/
def Has (e : Mb2MmapEntry) (a : ℕ) : Prop := e.addr.toNat ≤ a ∧ a < e.addr.toNat + e.len.toNat

/-- An entry of usable memory. -/
def Usable (e : Mb2MmapEntry) : Prop := e.type = 1#32

end Mb2MmapEntry

/-- The usable entries of a memory map have no address in common. -/
def DisjointUsable (entries : List Mb2MmapEntry) : Prop :=
  entries.Pairwise fun e e' => e.Usable → e'.Usable → ∀ a, e.Has a → ¬ e'.Has a

/-- All addresses of a block are usable memory. -/
def BootBlock.InUsable (b : BootBlock) (entries : List Mb2MmapEntry) : Prop :=
  ∀ a, b.start.toNat ≤ a → a < b.stop.toNat → ∃ e ∈ entries, e.Usable ∧ e.Has a

/-- A kernel image of one MiB at 1 MiB. -/
def lowKernel : BootBlock := ⟨0x100000#32, 0x200000#32, by decide, by decide⟩

/-- Multiboot2 information behind the kernel image. -/
def lowInfo : BootBlock := ⟨0x200000#32, 0x201000#32, by decide, by decide⟩

/-- A kernel image of one page at 1 MiB. -/
def smallKernel : BootBlock := ⟨0x100000#32, 0x101000#32, by decide, by decide⟩

/-- One page of Multiboot2 information behind it. -/
def smallInfo : BootBlock := ⟨0x101000#32, 0x102000#32, by decide, by decide⟩

/-- A call of a physical allocator. -/
inductive PmmCall where
  | allocPage
  | freePage (page : U32)

/-! ### Pointers to physical memory -/

/-- Byte `k` behind `PHYS_TO_VIRT(p)`, in front of the first GiB. -/
theorem bootTranslate_physToVirt {p : U32} {k : ℕ} (h : p.toNat + k < 2 ^ 30) :
    bootTranslate (physToVirt p + BitVec.ofNat 32 k) = some (p + BitVec.ofNat 32 k) := by
  have hv : (physToVirt p + BitVec.ofNat 32 k).toNat = p.toNat + 0xC0000000 + k := by
    unfold physToVirt kernelVirtOffset
    rw [BitVec.toNat_add, BitVec.toNat_add, BitVec.toNat_ofNat, BitVec.toNat_ofNat]
    omega
  unfold bootTranslate
  rw [if_neg (by rw [BitVec.lt_def, hv]; simp; omega),
    if_pos (by rw [BitVec.le_def, hv]; simp; omega)]
  refine congrArg some (BitVec.eq_of_toNat_eq ?_)
  rw [BitVec.toNat_sub_of_le (by rw [BitVec.le_def, hv]; simp; omega), hv, BitVec.toNat_add]
  simp only [BitVec.toNat_ofNat]
  omega

/-- From 1 GiB on `PHYS_TO_VIRT` wraps around: what the boot directory shows there, if anything, is the
memory 1 GiB further down. -/
theorem bootTranslate_physToVirt_wraps {p : U32} {k : ℕ} (h : 2 ^ 30 ≤ p.toNat + k)
    (hlt : p.toNat + k < 2 ^ 32) {a : U32}
    (ha : bootTranslate (physToVirt p + BitVec.ofNat 32 k) = some a) : a.toNat + 2 ^ 30 = p.toNat + k := by
  have hv : (physToVirt p + BitVec.ofNat 32 k).toNat = p.toNat + k - 2 ^ 30 := by
    unfold physToVirt kernelVirtOffset
    rw [BitVec.toNat_add, BitVec.toNat_add, BitVec.toNat_ofNat, BitVec.toNat_ofNat]
    omega
  have hlow : ¬ 0xC0000000#32 ≤ physToVirt p + BitVec.ofNat 32 k := by
    rw [BitVec.le_def, hv]
    simp
    omega
  unfold bootTranslate at ha
  rw [if_neg hlow] at ha
  split at ha
  · obtain rfl := Option.some.inj ha
    omega
  · cases ha

/-! ### Rounding -/

/-- Rounding down to a page. -/
theorem alignDown_toNat (v : U32) : (alignDown v pageSize).toNat = v.toNat / 4096 * 4096 :=
  U32.toNat_and_not_low v 12 (by decide)

/-- `align_up` gives a multiple of the page size. -/
theorem alignUp_dvd (v : U32) : 4096 ∣ (alignUp v pageSize).toNat := by
  have hround := U32.toNat_and_not_low (v + (pageSize - 1#32)) 12 (by decide)
  exact Dvd.intro_left _ hround.symm

/-- Rounding up to a page, when there is one. -/
theorem alignUp_toNat {v : U32} (h : v.toNat + 4095 < 2 ^ 32) :
    (alignUp v pageSize).toNat = (v.toNat + 4095) / 4096 * 4096 := by
  have hadd : (v + (pageSize - 1#32)).toNat = v.toNat + 4095 := by
    rw [BitVec.toNat_add, show (pageSize - 1#32).toNat = 4095 from rfl, Nat.mod_eq_of_lt h]
  have hround := U32.toNat_and_not_low (v + (pageSize - 1#32)) 12 (by decide)
  rw [hadd] at hround
  exact hround

/-- The end of a block, rounded up to a page without wrapping. -/
theorem BootBlock.alignUp_stop (b : BootBlock) :
    (alignUp b.stop pageSize).toNat = (b.stop.toNat + 4095) / 4096 * 4096 := by
  have := b.stop_le
  exact alignUp_toNat (by omega)

end Microkernel.Pmm
