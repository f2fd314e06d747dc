import Mathlib.Data.BitVec
import Mathlib.Data.List.Basic

/-! # Bytes in memory

A memory with wrapping addresses, sequences of bytes that lie in it, and little-endian words.

An address is a 32-bit word and the next one is computed with the wrap-around of the machine, so a
sequence may lie across the end of the address space.

* **`HoldsAt`** — a list of bytes lies at an address; it splits where the list does.
* **`load32`, `load64`, `bytesOf32`** — words of four and eight bytes, the low byte first, and a word as
  its bytes.
* **`load32_eq`** — a word is loaded as it was laid out.
-/

namespace Microkernel

/-- The elements of a list lie one behind the other from an address on. -/
def HoldsAt {w : ℕ} {α : Type*} (memory : BitVec w → α) (a : BitVec w) (l : List α) : Prop :=
  ∀ i x, l[i]? = some x → memory (a + BitVec.ofNat w i) = x

section
variable {w : ℕ} {α : Type*} {memory : BitVec w → α} {a : BitVec w}

/-- Memory that holds a list at an address holds every prefix of it there. -/
theorem HoldsAt.append_left {l l' : List α} (h : HoldsAt memory a (l ++ l')) : HoldsAt memory a l :=
  fun i x hi => h i x (by
    rw [List.getElem?_append_left (List.getElem?_eq_some_iff.mp hi).1]
    exact hi)

/-- What follows a list lies behind it. -/
theorem HoldsAt.append_right {l l' : List α} (h : HoldsAt memory a (l ++ l')) :
    HoldsAt memory (a + BitVec.ofNat w l.length) l' := by
  intro i x hi
  have hmem := h (l.length + i) x (by rwa [List.getElem?_append_right (Nat.le_add_right ..),
    Nat.add_sub_cancel_left])
  rwa [BitVec.ofNat_add, ← BitVec.add_assoc] at hmem

/-- A memory with a list at an address. -/
theorem holdsAt_getD (a : BitVec w) (l : List α) (d : α) (h : l.length ≤ 2 ^ w) :
    HoldsAt (fun b => l.getD (b - a).toNat d) a l := by
  intro i x hi
  have hlt := (List.getElem?_eq_some_iff.mp hi).1
  have hsub : a + BitVec.ofNat w i - a = BitVec.ofNat w i := by
    rw [BitVec.add_comm, BitVec.add_sub_cancel]
  dsimp only
  rw [hsub, BitVec.toNat_ofNat, Nat.mod_eq_of_lt (hlt.trans_le h), List.getD_eq_getElem?_getD, hi]
  rfl

end

/-! ### Words -/

section
variable {w : ℕ} (memory : BitVec w → BitVec 8) (a : BitVec w)

/-- The 32-bit word at an address. -/
def load32 : BitVec 32 :=
  memory (a + BitVec.ofNat w 3) ++ (memory (a + BitVec.ofNat w 2) ++
    (memory (a + BitVec.ofNat w 1) ++ memory (a + BitVec.ofNat w 0)))

/-- The 64-bit word at an address. -/
def load64 : BitVec 64 := load32 memory (a + BitVec.ofNat w 4) ++ load32 memory a

end

/-- The bytes of a 32-bit word, lowest first. -/
def bytesOf32 (v : BitVec 32) : List (BitVec 8) :=
  [v.extractLsb' 0 8, v.extractLsb' 8 8, v.extractLsb' 16 8, v.extractLsb' 24 8]

/-- A 32-bit word is four bytes. -/
@[simp] theorem length_bytesOf32 (v : BitVec 32) : (bytesOf32 v).length = 4 := rfl

/-- A word is read back. -/
theorem HoldsAt.load32_eq {w : ℕ} {memory : BitVec w → BitVec 8} {a : BitVec w} {v : BitVec 32}
    (h : HoldsAt memory a (bytesOf32 v)) : load32 memory a = v := by
  unfold load32
  rw [h 0 _ rfl, h 1 _ rfl, h 2 _ rfl, h 3 _ rfl,
    BitVec.extractLsb'_append_extractLsb'_eq_extractLsb' (by rfl),
    BitVec.extractLsb'_append_extractLsb'_eq_extractLsb' (by rfl),
    BitVec.extractLsb'_append_extractLsb'_eq_extractLsb' (by rfl)]
  exact BitVec.extractLsb'_eq_self

end Microkernel
