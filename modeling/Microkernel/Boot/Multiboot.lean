import Microkernel.Lib.ByteMemory
import Microkernel.Lib.WhileLoop
import Microkernel.Word

/-! # Multiboot2 information

The loops over the tags of the boot information: `mb2_find_tag` (the same text in `pmm_bitmap.c` and in
`mmap.c`), `mb2_find_mmap` of `pmm_buddy.c` and `mb2_dump_tags` of `kmain.c`. An address is a 32-bit word
and is computed with the wrap-around of the machine; the memory holds arbitrary bytes.

Each loop is an instance of `WhileLoop` of the library, so that the addresses at which it is entered can
be spoken of, and not its result alone; one entry reads one header of eight bytes.

* **`mb2FindTag`** — with three results in the source: found, not found, and a tag or a total size that
  makes no sense.
* **`mb2DumpTags`** — prints a line for every tag; it does not compare a tag with the end of the
  information.
* **`mb2FindMmap`** — returns the address of the memory map tag, or `NULL`.
-/

namespace Microkernel.Boot

/-- `align8_u32(n)`. -/
def align8 (n : U32) : U32 := (n + 7#32) &&& ~~~ 7#32

/-- `tag->type` of the `struct mb2_tag` at an address. -/
def tagType (memory : U32 → U8) (p : U32) : U32 := load32 memory p

/-- `tag->size`. -/
def tagSize (memory : U32 → U8) (p : U32) : U32 := load32 memory (p + 4#32)

/-- `enum mb2_find_result`, with what is stored to `*out`. -/
inductive Mb2FindResult where
  | ok (tag : U32)
  | notFound
  | invalid
  deriving DecidableEq

/-- The loop of `mb2_find_tag` and `mb2_find_mmap` up to `end`; they differ in how they report. -/
def mb2FindLoop {ρ : Type} (notFound invalid : ρ) (ok : U32 → ρ) (memory : U32 → U8)
    (stop want : U32) : WhileLoop U32 ρ where
  test p := decide (p + 8#32 ≤ stop)
  body p :=
    if tagType memory p = 0#32 ∧ tagSize memory p = 8#32 then .inl notFound
    else if tagSize memory p < 8#32 then .inl invalid
    else if p + tagSize memory p > stop then .inl invalid
    else if tagType memory p = want then .inl (ok p)
    else .inr (p + align8 (tagSize memory p))
  exit _ := notFound

/-- `mb2_find_tag(base, total_size, want_type, out)`, where `out` is not `NULL`. -/
def mb2FindTag (memory : U32 → U8) (base total want : U32) (n : ℕ) : Rounds U32 Mb2FindResult :=
  if base = 0#32 ∨ total < 16#32 then ⟨[], some .invalid⟩
  else (mb2FindLoop .notFound .invalid .ok memory (base + total) want).run n (base + 8#32)

/-- `mb2_find_mmap(base, total)`; `none` is `NULL`. -/
def mb2FindMmap (memory : U32 → U8) (base total : U32) (n : ℕ) : Rounds U32 (Option U32) :=
  if base = 0#32 ∨ total < 16#32 then ⟨[], some none⟩
  else (mb2FindLoop none none some memory (base + total) 6#32).run n (base + 8#32)

/-- A line that `mb2_dump_tags` prints. -/
inductive Mb2Line where
  | info (base total : U32)
  | tag (type size : U32)
  | endTag
  | invalidSize
  deriving DecidableEq

/-- The loop of `mb2_dump_tags`: the next tag and what has been printed. -/
def mb2DumpLoop (memory : U32 → U8) (stop : U32) : WhileLoop (U32 × List Mb2Line) (List Mb2Line) where
  test s := decide (s.1 + 8#32 ≤ stop)
  body s :=
    if tagType memory s.1 = 0#32 ∧ tagSize memory s.1 = 8#32 then .inl (s.2 ++ [.endTag])
    else
      let printed := s.2 ++ [.tag (tagType memory s.1) (tagSize memory s.1)]
      if tagSize memory s.1 < 8#32 then .inl (printed ++ [.invalidSize])
      else .inr (s.1 + align8 (tagSize memory s.1), printed)
  exit s := s.2

/-- `mb2_dump_tags(mb2_info)`. -/
def mb2DumpTags (memory : U32 → U8) (base : U32) (n : ℕ) :
    Rounds (U32 × List Mb2Line) (List Mb2Line) :=
  let total := load32 memory base
  (mb2DumpLoop memory (base + total)).run n (base + 8#32, [.info base total])

/-! ### Rounding up to eight -/

/-- The bytes that a tag takes, with its padding. -/
def padded (n : ℕ) : ℕ := (n + 7) / 8 * 8

/-- Padding makes no size smaller. -/
theorem le_padded (n : ℕ) : n ≤ padded n := by
  unfold padded
  omega

/-- The rounding wraps together with the addition. -/
theorem align8_toNat (n : U32) : (align8 n).toNat = padded n.toNat % 2 ^ 32 := by
  have hround := U32.toNat_and_not_low (n + 7#32) 3 (by decide)
  have hadd : (n + 7#32).toNat = (n.toNat + 7) % 2 ^ 32 := BitVec.toNat_add ..
  rw [hadd] at hround
  refine hround.trans ?_
  unfold padded
  omega

/-- The address behind a tag. -/
theorem toNat_add_align8 (p n : U32) :
    (p + align8 n).toNat = (p.toNat + padded n.toNat) % 2 ^ 32 := by
  rw [BitVec.toNat_add, align8_toNat, Nat.add_mod_mod]

end Microkernel.Boot
