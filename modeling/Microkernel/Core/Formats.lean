import Microkernel.Core.PrintedNumbers

/-! # The language of formats

A format is a sequence of characters and conversions, and each of them prints something of its own. The scanner
of `printk.c` prints what the pieces print, one after the other.

* **`Directive`** — a character that stands for itself, or a conversion with its flags, width and
  conversion character.
* **`Directive.text`** — the format read as such a sequence, and what the sequence prints with the
  arguments at hand.
* **`comes_directives`** — by induction on the sequence, the scanner comes to what is behind a piece with
  the piece printed.
* **`vprintk_prints`** — every complete format is such a sequence, and `vprintk` prints what it means.
-/

namespace Microkernel.Core

/-- A piece of a format: a character that stands for itself, or a conversion. -/
inductive Directive where
  | char (c : U8) (hc : c ≠ 0x25#8)
  | conversion (flags width : List U8) (conv : U8) (h : FieldBefore flags width conv)

namespace Directive

/-- How a piece is written. -/
def text : Directive → List U8
  | .char c _ => [c]
  | .conversion flags width conv _ => 0x25#8 :: (flags ++ width) ++ [conv]

/-- The width is that of an `int`. -/
def Fits : Directive → Prop
  | .char .. => True
  | .conversion _ width _ _ => widthValue width < 2 ^ 31

end Directive

/-- A digit. -/
def digitChar (d : ℕ) : U8 := BitVec.ofNat 8 (if d < 10 then 0x30 + d else 0x57 + d)

/-- A number in a base, without leading zeros. -/
def numeral (base n : ℕ) : List U8 :=
  if n = 0 then [0x30#8] else (Nat.digits base n).reverse.map digitChar

section
variable (strings : U32 → List U8) (args : ℕ → U32)

namespace Directive

/-- What a piece prints, if `arg` arguments were taken before it. -/
def printed (arg : ℕ) : Directive → List U8
  | .char c _ => [c]
  | .conversion flags width conv _ =>
      let field := paddedField flags (widthValue width)
      let v := args arg
      if conv = 0x25#8 then [0x25#8]
      else if conv = 0x64#8 then field (if v.toInt < 0 then [0x2D#8] else []) (numeral 10 v.toInt.natAbs)
      else if conv = 0x75#8 then field [] (numeral 10 v.toNat)
      else if conv = 0x78#8 then field [] (numeral 16 v.toNat)
      else if conv = 0x70#8 then
        [0x30#8, 0x78#8] ++ (List.range 8).reverse.map fun i => digitChar (v.toNat / 16 ^ i % 16)
      else if conv = 0x73#8 then field [] (if v = 0#32 then cString "(null)" else strings v)
      else if conv = 0x63#8 then field [] [v.setWidth 8]
      else [0x25#8, conv]

/-- How many arguments a piece takes: `%d`, `%u`, `%x`, `%p`, `%s` and `%c` take one. -/
def taken : Directive → ℕ
  | .char .. => 0
  | .conversion _ _ conv _ =>
      if conv ∈ [0x64#8, 0x75#8, 0x78#8, 0x70#8, 0x73#8, 0x63#8] then 1 else 0

end Directive

/-- What a sequence of pieces prints. -/
def printedBy : ℕ → List Directive → List U8
  | _, [] => []
  | arg, d :: ds => d.printed strings args arg ++ printedBy (arg + d.taken) ds

end

/-! ### Numerals -/

/-- The hexadecimal alphabet. -/
theorem hexAlphabet {d : ℕ} (hd : d < 16) : (cString "0123456789abcdef").getD d 0#8 = digitChar d := by
  have hall : ∀ d < 16, (cString "0123456789abcdef").getD d 0#8 = digitChar d := by decide +kernel
  exact hall d hd

/-- A loop that puts digits out gives the numeral. -/
theorem reverse_eq_numeral {base n : ℕ} {s : List U8} (hn : n ≠ 0)
    (h : List.Forall₂ (fun c d => c = digitChar d) s (Nat.digits base n)) : s.reverse = numeral base n := by
  have hs : s = (Nat.digits base n).map digitChar := by
    rw [← List.forall₂_eq_eq_eq, List.forall₂_map_right_iff]
    exact h
  unfold numeral
  rw [if_neg hn, hs, List.map_reverse]

/-- `fmt_u32_dec` prints a decimal numeral. -/
theorem fmtU32Dec_eq (value : U32) : fmtU32Dec value = numeral 10 value.toNat := by
  unfold fmtU32Dec
  split
  · rename_i hzero
    rw [hzero]
    decide +kernel
  · rename_i hne
    refine reverse_eq_numeral (fun h0 => hne (BitVec.eq_of_toNat_eq h0))
      (digitsLoop_spec (by decide) (fun n => by cases n <;> rfl) (fun n value hne => ?_) 10 value
        (value.isLt.trans (by decide)))
    have hlt : value.toNat % 10 < 10 := Nat.mod_lt _ (by decide)
    have hdiv : BitVec.ofNat 32 (value.toNat / 10) = value / 10#32 :=
      BitVec.eq_of_toNat_eq (Nat.mod_eq_of_lt (by omega))
    refine ⟨(0x30#32 + value % 10#32).setWidth 8, ?_, ?_⟩
    · unfold digitChar
      rw [if_pos hlt]
      refine BitVec.eq_of_toNat_eq ?_
      rw [BitVec.toNat_setWidth, BitVec.toNat_add, BitVec.toNat_umod, BitVec.toNat_ofNat]
      change (48 + value.toNat % 10) % 2 ^ 32 % 2 ^ 8 = (48 + value.toNat % 10) % 2 ^ 8
      omega
    · rw [hdiv, decDigits, if_pos ((BitVec.pos_iff_ne_zero value).mpr hne)]

/-- `fmt_u32_hex` prints a hexadecimal numeral. -/
theorem fmtU32Hex_eq (value : U32) : fmtU32Hex value = numeral 16 value.toNat := by
  unfold fmtU32Hex
  split
  · rename_i hzero
    rw [hzero]
    decide +kernel
  · rename_i hne
    refine reverse_eq_numeral (fun h0 => hne (BitVec.eq_of_toNat_eq h0))
      (digitsLoop_spec (by decide) (fun n => by cases n <;> rfl) (fun n value hne => ?_) 8 value value.isLt)
    have hmod : value.toNat % 16 = (value &&& 0xF#32).toNat := (U32.toNat_and_low value 4 (by decide)).symm
    have hdiv : BitVec.ofNat 32 (value.toNat / 16) = value >>> 4 := by
      apply BitVec.eq_of_toNat_eq
      rw [BitVec.toNat_ushiftRight, Nat.shiftRight_eq_div_pow]
      exact Nat.mod_eq_of_lt (by omega)
    refine ⟨_, hexAlphabet (Nat.mod_lt _ (by decide)), ?_⟩
    rw [hmod, hdiv, hexDigits, if_pos ((BitVec.pos_iff_ne_zero value).mpr hne)]

/-- The digits of `%p`. -/
theorem printHexU32Width_eq (v : U32) : cString "0x" ++ printHexU32Width v 8 =
    [0x30#8, 0x78#8] ++ (List.range 8).reverse.map fun i => digitChar (v.toNat / 16 ^ i % 16) := by
  rw [show cString "0x" = [0x30#8, 0x78#8] by decide +kernel]
  refine congrArg _ (List.map_congr_left fun i _ => ?_)
  have hdigit : ((v >>> (i * 4)) &&& 0xF#32).toNat = v.toNat / 16 ^ i % 16 := by
    rw [show (0xF#32) = BitVec.ofNat 32 (2 ^ 4 - 1) from rfl, U32.toNat_and_low _ 4 (by decide),
      BitVec.toNat_ushiftRight, Nat.shiftRight_eq_div_pow, Nat.mul_comm, Nat.pow_mul]
    rfl
  rw [hdigit]
  exact hexAlphabet (Nat.mod_lt _ (by decide))

/-- The absolute value of a number. -/
theorem natAbs_toInt (v : U32) : (if v.toInt < 0 then 0#32 - v else v).toNat = v.toInt.natAbs := by
  have hlt := v.isLt
  rw [BitVec.toInt_eq_toNat_cond]
  by_cases hneg : 2 * v.toNat < 2 ^ 32
  · rw [if_pos hneg, if_neg (by omega), Int.natAbs_natCast]
  · rw [if_neg hneg, if_pos (by omega), BitVec.toNat_sub, BitVec.toNat_ofNat]
    omega

/-! ### Formats and their pieces -/

/-- Complete formats are those that consist of pieces, with a `%` at the end or without. -/
theorem complete_iff_directives (s : List U8) :
    Complete s ↔ ∃ (ds : List Directive) (rest : List U8), (rest = [] ∨ rest = [0x25#8]) ∧
      s = ds.flatMap Directive.text ++ rest := by
  constructor
  · intro h
    induction h with
    | nil => exact ⟨[], [], .inl rfl, rfl⟩
    | text hc _ ih =>
      obtain ⟨ds, rest, hrest, rfl⟩ := ih
      exact ⟨.char _ hc :: ds, rest, hrest, rfl⟩
    | percent => exact ⟨[], [0x25#8], .inr rfl, rfl⟩
    | conversion hfield _ ih =>
      obtain ⟨ds, rest, hrest, rfl⟩ := ih
      refine ⟨.conversion _ _ _ hfield :: ds, rest, hrest, ?_⟩
      simp [Directive.text]
  · rintro ⟨ds, rest, hrest, rfl⟩
    induction ds with
    | nil =>
      rcases hrest with rfl | rfl
      · exact .nil
      · exact .percent
    | cons d ds ih =>
      cases d with
      | char c hc => exact .text hc ih
      | conversion flags width conv h =>
        have hcomplete := Complete.conversion h ih
        simpa [Directive.text] using hcomplete

section
variable {strings : U32 → List U8} {fmt : ℕ → U8} {args : ℕ → U32}

/-- What the `switch` prints and takes is what the piece does. -/
theorem convert_eq {flags width : List U8} {conv : U8} (h : FieldBefore flags width conv)
    (hw : widthValue width < 2 ^ 31) (arg : ℕ) :
    convert strings args (decide (0x2D#8 ∈ flags)) (padOf flags) (widthAfter 0#32 width).toInt conv arg =
      ((Directive.conversion flags width conv h).printed strings args arg,
        arg + (Directive.conversion flags width conv h).taken) := by
  rw [widthAfter_toInt hw]
  unfold Directive.printed Directive.taken
  dsimp only
  by_cases hpercent : conv = 0x25#8
  · subst hpercent
    rfl
  by_cases hd : conv = 0x64#8
  · subst hd
    rw [convert_d, fmtU32Dec_eq, natAbs_toInt]
    simp
  by_cases hu : conv = 0x75#8
  · subst hu
    rw [convert_u, fmtU32Dec_eq]
    rfl
  by_cases hx : conv = 0x78#8
  · subst hx
    rw [convert_x, fmtU32Hex_eq]
    rfl
  by_cases hp : conv = 0x70#8
  · subst hp
    have hconvert : convert strings args (decide (0x2D#8 ∈ flags)) (padOf flags) (widthValue width) 0x70#8
        arg = (cString "0x" ++ printHexU32Width (args arg) 8, arg + 1) := rfl
    rw [hconvert, printHexU32Width_eq]
    rfl
  by_cases hs : conv = 0x73#8
  · subst hs
    have hconvert : convert strings args (decide (0x2D#8 ∈ flags)) (padOf flags) (widthValue width) 0x73#8
        arg = (serialWritePadded (if args arg = 0#32 then cString "(null)" else strings (args arg))
          (widthValue width) (decide (0x2D#8 ∈ flags)) (padOf flags), arg + 1) := rfl
    rw [hconvert, serialWritePadded_eq]
    rfl
  by_cases hc : conv = 0x63#8
  · subst hc
    have hconvert : convert strings args (decide (0x2D#8 ∈ flags)) (padOf flags) (widthValue width) 0x63#8
        arg = (serialWritePadded [(args arg).setWidth 8] (widthValue width) (decide (0x2D#8 ∈ flags))
          (padOf flags), arg + 1) := rfl
    rw [hconvert, serialWritePadded_eq]
    rfl
  unfold convert
  simp [hpercent, hd, hu, hx, hp, hs, hc]

/-- **One piece**: the scanner comes to the text behind it and has printed what the piece prints. -/
theorem comes_directive (d : Directive) (hd : d.Fits) {pos arg : ℕ} (hread : Reads fmt pos d.text)
    (h0 : 0#8 ∉ d.text) (output : List U8) :
    (vprintkLoop strings fmt args).Comes ⟨.text, pos, arg, output⟩
      ⟨.text, pos + d.text.length, arg + d.taken, output ++ d.printed strings args arg⟩ := by
  cases d with
  | char c hc =>
    obtain ⟨rfl, -⟩ := hread
    exact .single (next_text (fun h => h0 (h ▸ List.mem_cons_self)) hc)
  | conversion flags width conv h =>
    have hconv : conv ≠ 0#8 := by
      rintro rfl
      exact h0 (by simp [Directive.text])
    have hcomes := comes_converted strings args arg h hconv hread output
    rw [convert_eq h hd] at hcomes
    have hlength : pos + (Directive.conversion flags width conv h).text.length =
        pos + 1 + (flags ++ width).length + 1 := by
      simp only [Directive.text, List.cons_append, List.length_cons, List.length_append, List.length_nil]
      omega
    rw [hlength]
    exact hcomes

/-- **A sequence of pieces** is printed piece by piece. -/
theorem comes_directives (strings : U32 → List U8) (args : ℕ → U32) (arg : ℕ) (ds : List Directive)
    (hds : ∀ d ∈ ds, d.Fits) {pos : ℕ}
    (hread : Reads fmt pos (ds.flatMap Directive.text)) (h0 : 0#8 ∉ ds.flatMap Directive.text)
    (output : List U8) : ∃ arg', (vprintkLoop strings fmt args).Comes ⟨.text, pos, arg, output⟩
      ⟨.text, pos + (ds.flatMap Directive.text).length, arg', output ++ printedBy strings args arg ds⟩ := by
  induction ds generalizing pos arg output with
  | nil =>
    refine ⟨arg, ?_⟩
    rw [printedBy, List.append_nil]
    exact .refl
  | cons d ds ih =>
    obtain ⟨hd, hrest⟩ := List.forall_mem_cons.mp hds
    rw [List.flatMap_cons] at hread h0 ⊢
    obtain ⟨hfirst, hlater⟩ := reads_append.mp hread
    rw [List.mem_append, not_or] at h0
    obtain ⟨arg', hcomes⟩ := ih (arg + d.taken) hrest hlater h0.2 (output ++ d.printed strings args arg)
    refine ⟨arg', (comes_directive d hd hfirst h0.1 output).trans ?_⟩
    rw [printedBy, List.length_append, ← Nat.add_assoc, ← List.append_assoc]
    exact hcomes

end

/-- **`vprintk` prints what its format means**: the complete formats are those made of characters and
conversions, with a `%` at the end or without; and for every such format whose widths are those of an `int`,
and all arguments, the output is what its pieces print one after the other, each conversion with the next
argument; a `%` at the end prints itself. -/
theorem vprintk_prints :
    (∀ s : List U8, Complete s ↔ ∃ (ds : List Directive) (rest : List U8), (rest = [] ∨ rest = [0x25#8]) ∧
      s = ds.flatMap Directive.text ++ rest) ∧
    ∀ (strings : U32 → List U8) (fmt : ℕ → U8) (args : ℕ → U32) (ds : List Directive) (rest : List U8),
      rest = [] ∨ rest = [0x25#8] → (∀ d ∈ ds, d.Fits) →
      StringAt 0#8 fmt 0 (ds.flatMap Directive.text ++ rest) →
      ∃ n, (vprintk strings fmt args n).result = some (printedBy strings args 0 ds ++ rest) := by
  refine ⟨complete_iff_directives, fun strings fmt args ds rest hrest hds hfmt => ?_⟩
  obtain ⟨hread, h0, hend⟩ := stringAt_append.mp hfmt
  obtain ⟨arg, hcomes⟩ := comes_directives strings args 0 ds hds hread h0 []
  rw [List.nil_append] at hcomes
  refine hcomes.exists_result_iff.mpr ?_
  rcases hrest with rfl | rfl
  · rw [List.append_nil]
    exact ⟨1, WhileLoop.Ends.run (.inl ⟨rfl, if_pos (stringAt_nil.mp hend)⟩) 0⟩
  · obtain ⟨hpercent, -, hend⟩ := stringAt_cons.mp hend
    refine (WhileLoop.Comes.exists_result_iff (.single (next_percent hpercent))).mpr ⟨1, ?_⟩
    exact WhileLoop.Ends.run (.inl ⟨rfl, if_pos (stringAt_nil.mp hend)⟩) 0

/-- The format `"%4d%"` with the argument -7. -/
theorem vprintk_prints_padded : ∃ n, (vprintk (fun _ => []) (fun i => [0x25#8, 0x34#8, 0x64#8, 0x25#8].getD i 0#8)
    (fun _ => -7#32) n).result = some [0x20#8, 0x20#8, 0x2D#8, 0x37#8, 0x25#8] := by
  have hfield : FieldBefore [] [0x34#8] 0x64#8 := ⟨by decide, by decide, by decide, rfl⟩
  obtain ⟨n, hn⟩ := vprintk_prints.2 (fun _ => []) (fun i => [0x25#8, 0x34#8, 0x64#8, 0x25#8].getD i 0#8)
    (fun _ => -7#32) [.conversion [] [0x34#8] 0x64#8 hfield] [0x25#8] (.inr rfl)
    (List.forall_mem_singleton.mpr (show widthValue [0x34#8] < 2 ^ 31 by decide)) (by simp [Directive.text])
  refine ⟨n, hn.trans (congrArg some ?_)⟩
  have hnumeral : numeral 10 7 = [0x37#8] := by
    unfold numeral
    norm_num
    decide
  change paddedField [] 4 [0x2D#8] (numeral 10 7) ++ [] ++ [0x25#8] = _
  rw [hnumeral]
  decide

end Microkernel.Core
