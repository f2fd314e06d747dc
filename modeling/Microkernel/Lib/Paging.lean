import Mathlib.Data.BitVec

/-! # 32-bit paging

How an x86 processor translates addresses through a page directory and page tables of 32-bit entries,
with pages of 4 KiB and 4 MiB, and which accesses fault. The accessed and dirty bits and physical
addresses above 4 GiB are not modelled.

* **`Tables`, `walk`** — the directory and the tables by the numbers of their frames, and the translation
  of a page through them: an entry of the directory, then one of a table, with the permissions of both
  combined.
* **`Access`, `outcome`** — an access at a privilege level, for reading or writing, and what becomes of
  it: a physical address, or a fault with its error code.
-/

namespace Microkernel.Paging

/-! ### Tables -/

/-- The present bit of an entry. -/
def present (e : BitVec 32) : Bool := e.getLsbD 0

/-- The bit that allows writing. -/
def writable (e : BitVec 32) : Bool := e.getLsbD 1

/-- The bit that admits ring 3. -/
def user (e : BitVec 32) : Bool := e.getLsbD 2

/-- The bit of a directory entry that maps a page of 4 MiB. -/
def large (e : BitVec 32) : Bool := e.getLsbD 7

/-- The number of the frame in an entry. -/
def frameOf (e : BitVec 32) : BitVec 20 := e.extractLsb' 12 20

/-- The number of the page of an address. -/
def pageOf (a : BitVec 32) : BitVec 20 := a.extractLsb' 12 20

/-- The place of an address in its page. -/
def offsetOf (a : BitVec 32) : BitVec 12 := a.extractLsb' 0 12

/-- The index of a page in the directory. -/
def dirIndex (p : BitVec 20) : BitVec 10 := p.extractLsb' 10 10

/-- The index of a page in its table. -/
def tableIndex (p : BitVec 20) : BitVec 10 := p.extractLsb' 0 10

/-- The directory index is the page number without its low ten bits. -/
theorem dirIndex_toNat (p : BitVec 20) : (dirIndex p).toNat = p.toNat / 2 ^ 10 := by
  have hlt := p.isLt
  rw [dirIndex, BitVec.extractLsb'_toNat, Nat.shiftRight_eq_div_pow]
  omega

/-- The table index is the low ten bits of the page number. -/
theorem tableIndex_toNat (p : BitVec 20) : (tableIndex p).toNat = p.toNat % 2 ^ 10 := by
  rw [tableIndex, BitVec.extractLsb'_toNat, Nat.shiftRight_zero]

/-- The two indices determine a page. -/
theorem page_ext {p q : BitVec 20} (hd : dirIndex p = dirIndex q) (ht : tableIndex p = tableIndex q) :
    p = q := by
  rw [← BitVec.toNat_inj, dirIndex_toNat, dirIndex_toNat] at hd
  rw [← BitVec.toNat_inj, tableIndex_toNat, tableIndex_toNat] at ht
  apply BitVec.eq_of_toNat_eq
  omega

/-- The directory, and the page tables by the number of the frame they lie in. -/
structure Tables where
  dir : BitVec 10 → BitVec 32
  table : BitVec 20 → BitVec 10 → BitVec 32

/-- Where a page lies, and who may do what there. -/
@[ext] structure Translation where
  frame : BitVec 20
  writable : Bool
  user : Bool
  deriving DecidableEq

/-- The translation by an entry of a table under a directory entry. A right needs the bit in both. -/
def translation (e entry : BitVec 32) : Option Translation :=
  if present entry then some ⟨frameOf entry, writable e && writable entry, user e && user entry⟩ else none

namespace Tables

/-- The translation of a page under a directory entry. -/
def under (t : Tables) (e : BitVec 32) (p : BitVec 20) : Option Translation :=
  if ¬ present e then none
  else if large e then
    some ⟨(e.extractLsb' 22 10 ++ tableIndex p : BitVec (10 + 10)), writable e, user e⟩
  else translation e (t.table (frameOf e) (tableIndex p))

/-- The translation of a page. -/
def walk (t : Tables) (p : BitVec 20) : Option Translation := t.under (t.dir (dirIndex p)) p

end Tables

/-! ### Accesses -/

/-- An access to memory. -/
structure Access where
  address : BitVec 32
  write : Bool
  /-- The access is made in ring 3. -/
  user : Bool

/-- An access reaches a physical address, or faults with an error code. -/
inductive Outcome where
  | reaches (physical : BitVec 32)
  | faults (code : BitVec 32)
  deriving DecidableEq

/-- The error code of a page fault: whether there is a translation, the kind of access, its ring. -/
def errorCode (translated : Bool) (a : Access) : BitVec 32 :=
  (if translated then 1#32 else 0#32) ||| (if a.write then 2#32 else 0#32) |||
    (if a.user then 4#32 else 0#32)

/-- The rights suffice. Outside ring 3 a read-only page can be written unless `CR0.WP` is set. -/
def Translation.allows (t : Translation) (wp : Bool) (a : Access) : Bool :=
  (!a.user || t.user) && (!a.write || t.writable || (!a.user && !wp))

/-- What an access through a translation does. -/
def Access.outcome (a : Access) (wp : Bool) : Option Translation → Outcome
  | none => .faults (errorCode false a)
  | some t =>
      if t.allows wp a then .reaches (t.frame ++ offsetOf a.address : BitVec (20 + 12))
      else .faults (errorCode true a)

end Microkernel.Paging
