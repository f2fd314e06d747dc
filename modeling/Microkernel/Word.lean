import Mathlib.Data.BitVec
import Mathlib.Data.Nat.Bitwise

/-! # 32-bit words

The kernel is a 32-bit program: `uint32_t`, `unsigned`, `size_t` and every address are `U32`, with
the wrap-around of C. Its code and the memory that it reaches lie from `KERNEL_VIRT_OFFSET` on.

* **`physToVirt`, `virtToPhys`** are the macros that pass between a physical address and the pointer to it.
* **`U32.PageAligned`** is the test of `vmm.c` and `vma.c`, a divisibility by `U32.pageAligned_iff`. -/

namespace Microkernel

/-- `uint32_t`, `size_t`, `unsigned` and address-valued integers. -/
abbrev U32 := BitVec 32

/-- `uint8_t`. -/
abbrev U8 := BitVec 8

/-- `VMM_PAGE_SIZE`. -/
def vmmPageSize : U32 := 4096#32

/-- `KERNEL_VIRT_OFFSET`. -/
def kernelVirtOffset : U32 := 0xC0000000#32

/-- `PHYS_TO_VIRT(paddr)`. -/
def physToVirt (paddr : U32) : U32 := paddr + kernelVirtOffset

/-- `VIRT_TO_PHYS(vaddr)`. -/
def virtToPhys (vaddr : U32) : U32 := vaddr - kernelVirtOffset

theorem virtToPhys_physToVirt (a : U32) : virtToPhys (physToVirt a) = a :=
  BitVec.add_sub_cancel a kernelVirtOffset

namespace U32

/-- The low 12 bits of an address are zero: `(a & 0xFFF) == 0`. -/
def PageAligned (a : U32) : Prop := a &&& 0xFFF#32 = 0#32

instance (a : U32) : Decidable a.PageAligned := inferInstanceAs (Decidable (_ = _))

/-- The low bits of a word are its remainder. -/
theorem toNat_and_low (a : U32) (k : ℕ) (hk : k ≤ 32) :
    (a &&& BitVec.ofNat 32 (2 ^ k - 1)).toNat = a.toNat % 2 ^ k := by
  have hlt : 2 ^ k - 1 < 2 ^ 32 := by
    have := Nat.pow_le_pow_right (n := 2) (by decide) hk
    have := Nat.two_pow_pos k
    omega
  rw [BitVec.toNat_and, BitVec.toNat_ofNat, Nat.mod_eq_of_lt hlt, Nat.and_two_pow_sub_one_eq_mod]

/-- Clearing the low bits rounds down. -/
theorem toNat_and_not_low (a : U32) (k : ℕ) (hk : k ≤ 32) :
    (a &&& ~~~ BitVec.ofNat 32 (2 ^ k - 1)).toNat = a.toNat / 2 ^ k * 2 ^ k := by
  have hlow := toNat_and_low a k hk
  -- the two parts of `a` have no bit in common
  have hsplit : (a &&& ~~~ BitVec.ofNat 32 (2 ^ k - 1)) + (a &&& BitVec.ofNat 32 (2 ^ k - 1)) = a := by
    rw [BitVec.add_eq_or_of_and_eq_zero]
    · ext i
      simp
      grind
    · ext i
      simp
      grind
  have hle : (a &&& ~~~ BitVec.ofNat 32 (2 ^ k - 1)).toNat ≤ a.toNat := by
    rw [BitVec.toNat_and]
    exact Nat.and_le_left
  have hsum := congrArg BitVec.toNat hsplit
  have hlt := a.isLt
  have hdiv := Nat.div_add_mod' a.toNat (2 ^ k)
  rw [BitVec.toNat_add, hlow] at hsum
  generalize (a &&& ~~~ BitVec.ofNat 32 (2 ^ k - 1)).toNat = x at *
  generalize a.toNat / 2 ^ k * 2 ^ k = y at *
  generalize a.toNat % 2 ^ k = z at *
  omega

theorem pageAligned_iff (a : U32) : a.PageAligned ↔ 4096 ∣ a.toNat := by
  have hlow := toNat_and_low a 12 (by decide)
  unfold PageAligned
  rw [Nat.dvd_iff_mod_eq_zero, show 4096 = 2 ^ 12 from rfl, ← hlow, ← BitVec.toNat_inj]
  rfl

end U32

end Microkernel
