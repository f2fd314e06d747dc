import Microkernel.Cmds.ParseU32
import Mathlib.Data.Nat.Digits.Lemmas

/-! # Printed numbers read back

The fields that `%u`, `%x`, `%d` and `%p` print, and `parse_u32` on what is left of them without the
padding.

* **`FieldOf`** — a sign, the digits without a leading zero, and as much padding as the width asks for, on
  the side and with the character that the flags say.
* **`stripField_eq`** — spaces, sign and zeros are removed to leave the numeral.
* **`printed_number_reads_back`** — wherever the conversion stands in a format, what is printed is the
  field of the argument: for `%u` the number itself, for `%d` the signed one, for `%x` and `%p` the
  hexadecimal digits, as the commands of the shell would parse them.
-/

namespace Microkernel.Core

open Cmds (parseU32 Denotes DecDigit HexDigit DigitIn)

/-! ### Reading a field -/

/-- Leading zeros are taken away, but not the last digit. -/
def dropZeros (s : List U8) : List U8 :=
  if s.dropWhile (· = 0x30#8) = [] then s.take 1 else s.dropWhile (· = 0x30#8)

/-- A field without its padding: whether there is a minus sign, and the digits. -/
def stripField (field : List U8) : Bool × List U8 :=
  let s := field.dropWhile (· = 0x20#8)
  let s := (s.reverse.dropWhile (· = 0x20#8)).reverse
  if s.head? = some 0x2D#8 then (true, dropZeros s.tail) else (false, dropZeros s)

/-- The number that the shell's parser finds in a stripped field, with `0x` in front of hexadecimal digits and
negated behind a minus sign. -/
def readBack (conv : U8) (field : List U8) : Option U32 :=
  let (minus, digits) := stripField field
  match parseU32 (some (if conv = 0x78#8 then cString "0x" ++ digits else digits)) (some 0#32) with
  | (some u, 1) => some (if minus then -u else u)
  | _ => none

/-- The number that a width stands for. -/
def widthValue (width : List U8) : ℕ := width.foldl (fun w c => w * 10 + (c - 0x30#8).toNat) 0

/-- A sign and digits in a field: spaces behind them with the flag `-`, else zeros between them with the flag
`0`, else spaces in front. -/
def paddedField (flags : List U8) (w : ℕ) (sign digits : List U8) : List U8 :=
  let n := w - (sign ++ digits).length
  if 0x2D#8 ∈ flags then sign ++ digits ++ List.replicate n 0x20#8
  else if 0x30#8 ∈ flags then sign ++ List.replicate n 0x30#8 ++ digits
  else List.replicate n 0x20#8 ++ (sign ++ digits)

/-- **The field of a number**: what is left without the padding is a minus sign, if the number is negative, and
digits without a leading zero; the field has the width or is as long as these; a minus sign comes before zeros;
and the digits are read back as the number. -/
structure FieldOf (flags : List U8) (w : ℕ) (conv : U8) (v : U32) (field : List U8) : Prop where
  minus : (stripField field).1 = true ↔ conv = 0x64#8 ∧ v.toInt < 0
  length : field.length = max w ((stripField field).1.toNat + (stripField field).2.length)
  leading : (stripField field).2.head? = some 0x30#8 → (stripField field).2 = [0x30#8] ∧ v = 0#32
  padding : field =
    paddedField flags w (if (stripField field).1 then [0x2D#8] else []) (stripField field).2
  value : readBack conv field = some v

/-! ### The digits -/

/-- A numeral without a leading zero. -/
structure IsNumeral (Digit : U8 → ℕ → Prop) (base n : ℕ) (s : List U8) : Prop where
  ne_nil : s ≠ []
  value : ∃ digits, List.Forall₂ Digit s digits ∧ n = Nat.ofDigits base digits.reverse
  leading : s.head? = some 0x30#8 → s = [0x30#8] ∧ n = 0

/-- The digits of a number that is not zero, most significant first. -/
theorem isNumeral_reverse {Digit : U8 → ℕ → Prop} {base n : ℕ} {s : List U8}
    (hzero : ∀ d, Digit 0x30#8 d → d = 0) (hn : n ≠ 0) (hs : List.Forall₂ Digit s (Nat.digits base n)) :
    IsNumeral Digit base n s.reverse := by
  have hrev := List.forall₂_reverse_iff.mpr hs
  refine ⟨fun h => ?_, ⟨_, hrev, ?_⟩, fun h => ?_⟩
  · rw [List.reverse_eq_nil_iff.mp h, List.forall₂_nil_left_iff, Nat.digits_eq_nil_iff_eq_zero] at hs
    exact hn hs
  · rw [List.reverse_reverse, Nat.ofDigits_digits]
  · -- the first character would be the most significant digit
    have hlast := Nat.getLast_digit_ne_zero base hn
    rw [← List.head_reverse (by simpa [Nat.digits_eq_nil_iff_eq_zero] using hn)] at hlast
    obtain ⟨c, l, hl⟩ : ∃ c l, s.reverse = c :: l :=
      List.exists_cons_of_ne_nil fun hnil => by simp [hnil] at h
    rw [hl] at h hrev
    obtain rfl := Option.some.inj h
    obtain ⟨d, digits, hd, -, hdigits⟩ := List.forall₂_cons_left_iff.mp hrev
    simp only [hdigits, List.head_cons] at hlast
    exact absurd (hzero d hd) hlast

/-- A loop that puts the digits of a value out, least first. -/
theorem digitsLoop_spec {loop : ℕ → U32 → List U8} {Digit : U8 → ℕ → Prop} {base : ℕ} (hbase : 1 < base)
    (hzero : ∀ n, loop n 0#32 = [])
    (hsucc : ∀ n value, value ≠ 0#32 → ∃ c, Digit c (value.toNat % base) ∧
      loop (n + 1) value = c :: loop n (BitVec.ofNat 32 (value.toNat / base))) (n : ℕ) :
    ∀ value, value.toNat < base ^ n → List.Forall₂ Digit (loop n value) (Nat.digits base value.toNat) := by
  induction n with
  | zero =>
    intro value h
    obtain rfl : value = 0#32 := BitVec.eq_of_toNat_eq (by simpa using h)
    rw [hzero]
    simp
  | succ n ih =>
    intro value h
    rcases eq_or_ne value 0#32 with rfl | hne
    · rw [hzero]
      simp
    obtain ⟨c, hc, hloop⟩ := hsucc n value hne
    have hpos : 0 < value.toNat := Nat.pos_of_ne_zero fun h0 => hne (BitVec.eq_of_toNat_eq h0)
    -- the quotient is the value that is left
    have hdiv : (BitVec.ofNat 32 (value.toNat / base)).toNat = value.toNat / base :=
      Nat.mod_eq_of_lt ((Nat.div_le_self ..).trans_lt value.isLt)
    have hrest := ih (BitVec.ofNat 32 (value.toNat / base)) (by
      rw [hdiv]
      exact Nat.div_lt_of_lt_mul (by rwa [Nat.pow_succ'] at h))
    rw [hdiv] at hrest
    rw [hloop, Nat.digits_def' hbase hpos]
    exact .cons hc hrest

/-- The numeral of zero. -/
theorem isNumeral_zero {Digit : U8 → ℕ → Prop} {base : ℕ} (h0 : Digit 0x30#8 0) :
    IsNumeral Digit base 0 (cString "0") := by
  rw [show cString "0" = [0x30#8] by decide +kernel]
  exact ⟨List.cons_ne_nil _ _, ⟨[0], .cons h0 .nil, rfl⟩, fun _ => ⟨rfl, rfl⟩⟩

/-- `fmt_u32_dec` prints a decimal numeral. -/
theorem fmtU32Dec_isNumeral (value : U32) : IsNumeral DecDigit 10 value.toNat (fmtU32Dec value) := by
  have hchar : ∀ d < 10, DecDigit ((0x30#32 + BitVec.ofNat 32 d).setWidth 8) d :=
    fun d hd => Cmds.decDigit_iff_code.mpr ⟨hd, by bv_omega⟩
  unfold fmtU32Dec
  split
  · rename_i hzero
    rw [hzero]
    exact isNumeral_zero (hchar 0 (by decide))
  · rename_i hne
    refine isNumeral_reverse (fun d hd => (Cmds.decDigit_iff.mp hd).2)
      (fun h0 => hne (BitVec.eq_of_toNat_eq h0))
      (digitsLoop_spec (by decide) (fun n => ?_) (fun n value hne => ?_) 10 value
        (value.isLt.trans (by decide)))
    · cases n <;> rfl
    · refine ⟨_, hchar _ (Nat.mod_lt _ (by decide)), ?_⟩
      have hmod : BitVec.ofNat 32 (value.toNat % 10) = value % 10#32 :=
        BitVec.eq_of_toNat_eq (Nat.mod_eq_of_lt (by omega))
      have hdiv : BitVec.ofNat 32 (value.toNat / 10) = value / 10#32 :=
        BitVec.eq_of_toNat_eq (Nat.mod_eq_of_lt (by omega))
      rw [hmod, hdiv, decDigits, if_pos ((BitVec.pos_iff_ne_zero value).mpr hne)]

/-- `fmt_u32_hex` prints a hexadecimal numeral. -/
theorem fmtU32Hex_isNumeral (value : U32) : IsNumeral HexDigit 16 value.toNat (fmtU32Hex value) := by
  unfold fmtU32Hex
  split
  · rename_i hzero
    rw [hzero]
    exact isNumeral_zero (Cmds.hexDigit_iff_code.mpr ⟨by decide, .inl rfl⟩)
  · rename_i hne
    refine isNumeral_reverse (fun d hd => ?_) (fun h0 => hne (BitVec.eq_of_toNat_eq h0))
      (digitsLoop_spec (by decide) (fun n => ?_) (fun n value hne => ?_) 8 value value.isLt)
    · exact Int.natCast_inj.mp (Cmds.hexDigit_iff.mp hd).symm
    · cases n <;> rfl
    · refine ⟨_, Cmds.hexDigit_getD (Nat.mod_lt _ (by decide)), ?_⟩
      -- the low four bits, and the rest of them
      have hmod : value.toNat % 16 = (value &&& 0xF#32).toNat := (U32.toNat_and_low value 4 (by decide)).symm
      have hdiv : BitVec.ofNat 32 (value.toNat / 16) = value >>> 4 := by
        apply BitVec.eq_of_toNat_eq
        rw [BitVec.toNat_ushiftRight, Nat.shiftRight_eq_div_pow]
        exact Nat.mod_eq_of_lt (by omega)
      rw [hmod, hdiv, hexDigits, if_pos ((BitVec.pos_iff_ne_zero value).mpr hne)]

/-- The parser reads a decimal numeral. -/
theorem parseU32_dec {u : U32} {s : List U8} (h : IsNumeral DecDigit 10 u.toNat s) :
    parseU32 (some s) (some 0#32) = (some u, 1) := by
  obtain ⟨digits, hs, hvalue⟩ := h.value
  rw [(Cmds.parseU32_spec s 0#32).1 _ (.dec h.ne_nil hs), ← hvalue, BitVec.ofNat_toNat, BitVec.setWidth_eq]

/-- The parser reads hexadecimal digits behind `0x`. -/
theorem parseU32_hex {u : U32} {s : List U8} {digits : List ℕ} (hne : s ≠ [])
    (hs : List.Forall₂ HexDigit s digits) (hvalue : u.toNat = Nat.ofDigits 16 digits.reverse) :
    parseU32 (some (cString "0x" ++ s)) (some 0#32) = (some u, 1) := by
  rw [show cString "0x" ++ s = 0x30#8 :: 0x78#8 :: s by
      rw [show cString "0x" = [0x30#8, 0x78#8] by decide +kernel]
      rfl,
    (Cmds.parseU32_spec _ 0#32).1 _ (.hex (.inl rfl) hne hs), ← hvalue, BitVec.ofNat_toNat,
    BitVec.setWidth_eq]

/-! ### Padding and stripping -/

/-- Characters that no numeral and no sign is made of. -/
theorem IsNumeral.chars {Digit : U8 → ℕ → Prop} {base n : ℕ} {s : List U8}
    (hdigit : ∀ c d, Digit c d → c ≠ 0x20#8 ∧ c ≠ 0x2D#8) (h : IsNumeral Digit base n s) :
    ∀ c ∈ s, c ≠ 0x20#8 ∧ c ≠ 0x2D#8 := by
  obtain ⟨digits, hs, -⟩ := h.value
  clear h
  induction hs with
  | nil => exact fun c hc => absurd hc List.not_mem_nil
  | cons hd _ ih => exact List.forall_mem_cons.mpr ⟨hdigit _ _ hd, ih⟩

/-- A run in front of a list that goes on differently is dropped. -/
theorem dropWhile_replicate_append {x : U8} {l : List U8} (hl : ∀ c ∈ l.head?, c ≠ x) (n : ℕ) :
    (List.replicate n x ++ l).dropWhile (· = x) = l := by
  rw [List.dropWhile_append_of_pos fun c hc => decide_eq_true (List.eq_of_mem_replicate hc)]
  cases l with
  | nil => rfl
  | cons c l => exact List.dropWhile_cons_of_neg (by simpa using hl c rfl)

/-- Zeros in front of a numeral are taken away. -/
theorem dropZeros_replicate_append {digits : List U8} (hne : digits ≠ [])
    (hleading : digits.head? = some 0x30#8 → digits = [0x30#8]) (k : ℕ) :
    dropZeros (List.replicate k 0x30#8 ++ digits) = digits := by
  unfold dropZeros
  by_cases hzero : digits.head? = some 0x30#8
  · obtain rfl := hleading hzero
    have hall : List.replicate k 0x30#8 ++ [0x30#8] = List.replicate (k + 1) 0x30#8 ++ [] := by
      rw [List.append_nil, List.replicate_succ']
    rw [hall, dropWhile_replicate_append (by simp), if_pos rfl]
    rfl
  · have hother : ∀ c ∈ digits.head?, c ≠ 0x30#8 := by
      rintro c hc rfl
      exact hzero hc
    rw [dropWhile_replicate_append hother, if_neg hne]

/-- **Stripping**: spaces on either side, a sign and zeros behind it. -/
theorem stripField_eq {minus : Bool} {digits : List U8} (hne : digits ≠ [])
    (hchars : ∀ c ∈ digits, c ≠ 0x20#8 ∧ c ≠ 0x2D#8)
    (hleading : digits.head? = some 0x30#8 → digits = [0x30#8]) (n k m : ℕ) :
    stripField (List.replicate n 0x20#8 ++
      ((if minus then [0x2D#8] else []) ++ List.replicate k 0x30#8 ++ digits) ++
        List.replicate m 0x20#8) = (minus, digits) := by
  obtain ⟨core, hcore⟩ : ∃ core, (if minus then [0x2D#8] else []) ++ List.replicate k 0x30#8 ++ digits =
    core := ⟨_, rfl⟩
  have hspace : ∀ c ∈ core, c ≠ 0x20#8 := by
    rw [← hcore]
    intro c hc
    rcases List.mem_append.mp hc with hc | hc
    · rcases List.mem_append.mp hc with hc | hc
      · cases minus <;> simp_all
      · rw [List.eq_of_mem_replicate hc]
        decide
    · exact (hchars c hc).1
  have hcore_ne : core ≠ [] := by
    rw [← hcore]
    exact List.append_ne_nil_of_right_ne_nil _ hne
  have hhead : ∀ c ∈ (core ++ List.replicate m 0x20#8).head?, c ≠ 0x20#8 := by
    rw [List.head?_append_of_ne_nil _ hcore_ne]
    exact fun c hc => hspace c (List.mem_of_mem_head? hc)
  have hlast : ∀ c ∈ core.reverse.head?, c ≠ 0x20#8 :=
    fun c hc => hspace c (List.mem_reverse.mp (List.mem_of_mem_head? hc))
  unfold stripField
  dsimp only
  rw [hcore, List.append_assoc, dropWhile_replicate_append hhead, List.reverse_append,
    List.reverse_replicate, dropWhile_replicate_append hlast, List.reverse_reverse, ← hcore]
  cases minus with
  | true =>
    refine (if_pos rfl).trans ?_
    exact congrArg _ (dropZeros_replicate_append hne hleading k)
  | false =>
    have hminus : (List.replicate k 0x30#8 ++ digits).head? ≠ some 0x2D#8 := by
      intro h
      rcases List.mem_append.mp (List.mem_of_mem_head? h) with hc | hc
      · exact absurd (List.eq_of_mem_replicate hc) (by decide)
      · exact (hchars _ hc).2 rfl
    refine (if_neg hminus).trans ?_
    exact congrArg _ (dropZeros_replicate_append hne hleading k)

/-- The padding stands in one of three places. -/
theorem paddedField_eq (flags : List U8) (w : ℕ) (sign digits : List U8) :
    ∃ n k m, n + k + m = w - (sign ++ digits).length ∧ paddedField flags w sign digits =
      List.replicate n 0x20#8 ++ (sign ++ List.replicate k 0x30#8 ++ digits) ++
        List.replicate m 0x20#8 := by
  unfold paddedField
  dsimp only
  split
  · exact ⟨0, 0, _, Nat.zero_add _, by simp⟩
  split
  · exact ⟨0, _, 0, Nat.zero_add _, by simp⟩
  · exact ⟨_, 0, 0, rfl, by simp⟩

/-- A field is as wide as asked for, or as its contents. -/
theorem length_paddedField (flags : List U8) (w : ℕ) (sign digits : List U8) :
    (paddedField flags w sign digits).length = max w (sign ++ digits).length := by
  obtain ⟨n, k, m, hsum, heq⟩ := paddedField_eq flags w sign digits
  rw [heq]
  simp only [List.length_append, List.length_replicate] at hsum ⊢
  omega

/-- **A padded numeral is the field of a number** when the parser reads the numeral as its absolute value. -/
theorem fieldOf_paddedField (minus : Bool) {Digit : U8 → ℕ → Prop} {base n w : ℕ} {flags digits : List U8}
    {conv : U8} {u v : U32} (hnum : IsNumeral Digit base n digits)
    (hdigit : ∀ c d, Digit c d → c ≠ 0x20#8 ∧ c ≠ 0x2D#8)
    (hminus : minus = true ↔ conv = 0x64#8 ∧ v.toInt < 0) (hzero : n = 0 → v = 0#32)
    (hparse : parseU32 (some (if conv = 0x78#8 then cString "0x" ++ digits else digits)) (some 0#32) =
      (some u, 1)) (hu : (if minus then -u else u) = v) :
    FieldOf flags w conv v (paddedField flags w (if minus then [0x2D#8] else []) digits) := by
  obtain ⟨n, k, m, -, heq⟩ := paddedField_eq flags w (if minus then [0x2D#8] else []) digits
  have hstrip : stripField (paddedField flags w (if minus then [0x2D#8] else []) digits) =
      (minus, digits) := by
    rw [heq]
    exact stripField_eq hnum.ne_nil (hnum.chars hdigit) (fun h => (hnum.leading h).1) n k m
  refine ⟨?_, ?_, ?_, ?_, ?_⟩
  · rw [hstrip]
    exact hminus
  · rw [hstrip, length_paddedField]
    cases minus <;> simp [Nat.add_comm]
  · rw [hstrip]
    exact fun h => ⟨(hnum.leading h).1, hzero (hnum.leading h).2⟩
  · rw [hstrip]
  · unfold readBack
    rw [hstrip]
    dsimp only
    rw [hparse]
    exact congrArg some hu

/-! ### What the conversions print -/

/-- The padding character that the scanner has chosen. -/
def padOf (flags : List U8) : U8 :=
  if 0x2D#8 ∈ flags then 0x20#8 else if 0x30#8 ∈ flags then 0x30#8 else 0x20#8

/-- `serial_write_padded` puts a field without a sign out. -/
theorem serialWritePadded_eq (s flags : List U8) (w : ℕ) :
    serialWritePadded s w (decide (0x2D#8 ∈ flags)) (padOf flags) = paddedField flags w [] s := by
  have hpadding : (if (w : ℤ) > s.length then (w : ℤ) - s.length else 0).toNat = w - s.length := by
    split <;> omega
  have hnonneg : ¬ (w : ℤ) < 0 := by omega
  unfold serialWritePadded paddedField padOf
  dsimp only
  rw [if_neg hnonneg, hpadding]
  by_cases hminus : 0x2D#8 ∈ flags
  · simp [hminus]
  · by_cases hzero : 0x30#8 ∈ flags <;> simp [hminus, hzero]

/-- `fmt_int_dec` puts the sign of the number in front of its absolute value. -/
theorem fmtIntDec_eq (v : U32) : fmtIntDec v = (if decide (v.toInt < 0) then [0x2D#8] else []) ++
    fmtU32Dec (if v.toInt < 0 then 0#32 - v else v) := by
  have hsign : cString "-" = [0x2D#8] := by decide +kernel
  unfold fmtIntDec
  split
  · rename_i h
    rw [hsign, if_pos (decide_eq_true h)]
  · rename_i h
    rw [if_neg (by simpa using h), List.nil_append]

/-- A sign is part of a text that is not padded with zeros, or not padded at all. -/
theorem paddedField_sign {flags : List U8} {w : ℕ} {sign digits : List U8}
    (h : 0x2D#8 ∈ flags ∨ 0x30#8 ∉ flags ∨ w ≤ (sign ++ digits).length) :
    paddedField flags w [] (sign ++ digits) = paddedField flags w sign digits := by
  unfold paddedField
  dsimp only
  rw [List.nil_append]
  by_cases hminus : 0x2D#8 ∈ flags
  · rw [if_pos hminus, if_pos hminus]
  · rw [if_neg hminus, if_neg hminus]
    by_cases hzero : 0x30#8 ∈ flags
    · have hw : w - (sign ++ digits).length = 0 :=
        Nat.sub_eq_zero_of_le ((h.resolve_left hminus).resolve_left (not_not.mpr hzero))
      rw [if_pos hzero, if_pos hzero, hw]
      simp
    · rw [if_neg hzero, if_neg hzero]

/-- The digits of `%u` and `%d` begin with no sign. -/
theorem decDigit_chars (c : U8) (d : ℕ) (h : DecDigit c d) : c ≠ 0x20#8 ∧ c ≠ 0x2D#8 := by
  have hc := (Cmds.decDigit_iff.mp h).1
  constructor <;> rintro rfl <;> exact absurd hc (by decide)

/-- No hexadecimal digit is a blank or a minus sign. -/
theorem hexDigit_chars (c : U8) (d : ℕ) (h : HexDigit c d) : c ≠ 0x20#8 ∧ c ≠ 0x2D#8 := by
  have hc := Cmds.hexDigit_iff.mp h
  constructor
  · rintro rfl
    rw [show Cmds.hexVal 0x20#8 = -1 by decide] at hc
    omega
  · rintro rfl
    rw [show Cmds.hexVal 0x2D#8 = -1 by decide] at hc
    omega

section Convert
variable {strings : U32 → List U8} {fmt : ℕ → U8} {args : ℕ → U32} {flags width : List U8} {w pos arg : ℕ}

/-- **`%d`**: the sign comes before the zeros. -/
theorem convert_d : convert strings args (decide (0x2D#8 ∈ flags)) (padOf flags) w 0x64#8 arg =
    (paddedField flags w (if decide ((args arg).toInt < 0) then [0x2D#8] else [])
      (fmtU32Dec (if (args arg).toInt < 0 then 0#32 - args arg else args arg)), arg + 1) := by
  have hconvert : convert strings args (decide (0x2D#8 ∈ flags)) (padOf flags) w 0x64#8 arg =
      if padOf flags = 0x30#8 ∧ ¬ decide (0x2D#8 ∈ flags) = true ∧ (w : ℤ) > (fmtIntDec (args arg)).length ∧
          (fmtIntDec (args arg)).length > 0 ∧ (fmtIntDec (args arg)).head? = some 0x2D#8 then
        (0x2D#8 :: List.replicate ((w : ℤ) - (fmtIntDec (args arg)).length).toNat 0x30#8 ++
          (fmtIntDec (args arg)).tail, arg + 1)
      else (serialWritePadded (fmtIntDec (args arg)) w (decide (0x2D#8 ∈ flags)) (padOf flags), arg + 1) :=
    rfl
  rw [hconvert, fmtIntDec_eq, serialWritePadded_eq]
  by_cases hneg : (args arg).toInt < 0
  · rw [if_pos hneg, if_pos (decide_eq_true hneg)]
    generalize fmtU32Dec (0#32 - args arg) = digits
    split
    · rename_i h
      obtain ⟨hpad, hminus, hw, -⟩ := h
      have hminus : 0x2D#8 ∉ flags := by simpa using hminus
      have hzero : 0x30#8 ∈ flags := by
        by_contra hzero
        rw [padOf, if_neg hminus, if_neg hzero] at hpad
        exact absurd hpad (by decide)
      rw [paddedField, if_neg hminus, if_pos hzero]
      simp only [List.cons_append, List.nil_append, List.length_cons, List.tail_cons] at hw ⊢
      congr 4
      omega
    · rename_i h
      rw [paddedField_sign]
      by_contra hcases
      rw [not_or, not_or, not_not] at hcases
      obtain ⟨hminus, hzero, hw⟩ := hcases
      refine h ⟨?_, by simpa using hminus, by omega, by simp, rfl⟩
      rw [padOf, if_neg hminus, if_pos hzero]
  · have hdecide : ¬ decide ((args arg).toInt < 0) = true := by simpa using hneg
    rw [if_neg hneg, if_neg hdecide, List.nil_append]
    refine if_neg fun h => ?_
    exact ((fmtU32Dec_isNumeral (args arg)).chars decDigit_chars _ (List.mem_of_mem_head? h.2.2.2.2)).2 rfl

/-- `%u` and `%x`: there is no sign. -/
theorem convert_u : convert strings args (decide (0x2D#8 ∈ flags)) (padOf flags) w 0x75#8 arg =
    (paddedField flags w [] (fmtU32Dec (args arg)), arg + 1) := by
  rw [← serialWritePadded_eq]
  rfl

/-- `%x` prints the hexadecimal numeral of the argument in its field. -/
theorem convert_x : convert strings args (decide (0x2D#8 ∈ flags)) (padOf flags) w 0x78#8 arg =
    (paddedField flags w [] (fmtU32Hex (args arg)), arg + 1) := by
  rw [← serialWritePadded_eq]
  rfl

/-- A conversion in a format: what the scanner has done behind it. -/
theorem comes_converted (strings : U32 → List U8) (args : ℕ → U32) (arg : ℕ) {conv : U8}
    (hfield : FieldBefore flags width conv) (hconv : conv ≠ 0#8)
    (hread : Reads fmt pos (0x25#8 :: (flags ++ width) ++ [conv])) (output : List U8) :
    (vprintkLoop strings fmt args).Comes ⟨.text, pos, arg, output⟩
      ⟨.text, pos + 1 + (flags ++ width).length + 1,
        (convert strings args (decide (0x2D#8 ∈ flags)) (padOf flags) (widthAfter 0#32 width).toInt conv
          arg).2,
        output ++ (convert strings args (decide (0x2D#8 ∈ flags)) (padOf flags)
          (widthAfter 0#32 width).toInt conv arg).1⟩ := by
  rw [List.cons_append, reads_cons, reads_append, reads_cons] at hread
  obtain ⟨hpercent, hread, hend, -⟩ := hread
  have h0 : fmt (pos + 1) ≠ 0#8 := by
    intro h0
    obtain ⟨field, hlist⟩ : ∃ field, flags ++ width = field := ⟨_, rfl⟩
    rw [hlist] at hread hend
    cases field with
    | nil => exact hconv (hend.symm.trans h0)
    | cons c field =>
      have hc : c ∈ flags ++ width := hlist ▸ List.mem_cons_self
      rw [hread.1] at h0
      subst h0
      rcases List.mem_append.mp hc with hc | hc
      · exact absurd (hfield.isFlag _ hc) (by decide)
      · exact absurd (hfield.isDigit _ hc) (by decide)
  subst hend
  exact .head (next_percent hpercent) ((comes_spec hread hfield h0).tail ⟨rfl, rfl⟩)

/-- The width that the scanner has computed. -/
theorem widthAfter_toInt (hw : widthValue width < 2 ^ 31) :
    (widthAfter 0#32 width).toInt = widthValue width := by
  have hfold : ∀ (width : List U8) (a : ℕ), widthAfter (BitVec.ofNat 32 a) width =
      BitVec.ofNat 32 (width.foldl (fun w c => w * 10 + (c - 0x30#8).toNat) a) := by
    intro width
    induction width with
    | nil => exact fun a => rfl
    | cons c width ih =>
      intro a
      rw [List.foldl_cons, ← ih]
      refine congrArg (widthAfter · width) (BitVec.eq_of_toNat_eq ?_)
      simp
  rw [hfold width 0, BitVec.toInt_eq_toNat_of_lt] <;> rw [BitVec.toNat_ofNat]
  · exact congrArg _ (Nat.mod_eq_of_lt (hw.trans (by decide)))
  · have hmod := Nat.mod_le (widthValue width) (2 ^ 32)
    exact (Nat.mul_le_mul_left 2 hmod).trans_lt (by omega)

end Convert

/-! ### Reading back -/

/-- The conversion at a position prints a field, in every format and behind every output. -/
def PrintsAt (strings : U32 → List U8) (fmt : ℕ → U8) (args : ℕ → U32) (pos stop arg : ℕ)
    (field : List U8) : Prop :=
  ∀ output, (vprintkLoop strings fmt args).Comes ⟨.text, pos, arg, output⟩
    ⟨.text, stop, arg + 1, output ++ field⟩

/-- A format that is one conversion has the field as its output. -/
theorem PrintsAt.result {strings : U32 → List U8} {fmt : ℕ → U8} {args : ℕ → U32} {stop : ℕ}
    {field : List U8} (h : PrintsAt strings fmt args 0 stop 0 field) (hstop : fmt stop = 0#8) :
    ∃ n, (vprintk strings fmt args n).result = some field := by
  have hends : (vprintkLoop strings fmt args).Ends ⟨.text, stop, 1, field⟩ field :=
    .inl ⟨rfl, if_pos hstop⟩
  exact WhileLoop.exists_result_iff.mpr ⟨_, h [], hends⟩

/-- The eight digits of `%p`. -/
theorem printHexU32Width_spec (v : U32) : ∃ digits, List.Forall₂ HexDigit (printHexU32Width v 8) digits ∧
    digits.length = 8 ∧ v.toNat = Nat.ofDigits 16 digits.reverse := by
  refine ⟨(List.range 8).reverse.map fun i => v.toNat / 16 ^ i % 16, ?_, rfl, ?_⟩
  · have hprint : printHexU32Width v 8 = (List.range 8).reverse.map fun i =>
        (cString "0123456789abcdef").getD ((v >>> (i * 4)) &&& 0xF#32).toNat 0#8 := rfl
    rw [hprint, List.forall₂_map_left_iff, List.forall₂_map_right_iff, List.forall₂_same]
    intro i _
    have hdigit : ((v >>> (i * 4)) &&& 0xF#32).toNat = v.toNat / 16 ^ i % 16 := by
      rw [show (0xF#32) = BitVec.ofNat 32 (2 ^ 4 - 1) from rfl, U32.toNat_and_low _ 4 (by decide),
        BitVec.toNat_ushiftRight, Nat.shiftRight_eq_div_pow, Nat.mul_comm, Nat.pow_mul]
      rfl
    rw [hdigit]
    exact Cmds.hexDigit_getD (Nat.mod_lt _ (by decide))
  · have hv := v.isLt
    rw [← List.map_reverse, List.reverse_reverse]
    simp only [show List.range 8 = [0, 1, 2, 3, 4, 5, 6, 7] from rfl, List.map_cons, List.map_nil,
      Nat.ofDigits_cons, Nat.ofDigits_nil]
    omega

/-- **Printed numbers read back.** Wherever a conversion stands in a format, `%u`, `%x` and `%d` with flags and
a width below `2 ^ 31` print a field from which the parser gets the argument back; `%p` prints `0x` and eight
digits that the parser reads as the argument. -/
theorem printed_number_reads_back (strings : U32 → List U8) (fmt : ℕ → U8) (args : ℕ → U32) (pos arg : ℕ)
    (flags width : List U8) (conv : U8) (hfield : FieldBefore flags width conv)
    (hread : Reads fmt pos (0x25#8 :: (flags ++ width) ++ [conv])) :
    (conv = 0x75#8 ∨ conv = 0x78#8 ∨ conv = 0x64#8 → widthValue width < 2 ^ 31 → ∃ field,
      PrintsAt strings fmt args pos (pos + 1 + (flags ++ width).length + 1) arg field ∧
        FieldOf flags (widthValue width) conv (args arg) field) ∧
    (conv = 0x70#8 → ∃ digits,
      PrintsAt strings fmt args pos (pos + 1 + (flags ++ width).length + 1) arg (cString "0x" ++ digits) ∧
        digits.length = 8 ∧
        parseU32 (some (cString "0x" ++ digits)) (some 0#32) = (some (args arg), 1)) := by
  have hcomes := fun hconv => comes_converted strings args arg hfield hconv hread
  refine ⟨fun hconv hw => ?_, fun hconv => ?_⟩
  · simp only [widthAfter_toInt hw] at hcomes
    rcases hconv with rfl | rfl | rfl
    · rw [convert_u] at hcomes
      have hnum := fmtU32Dec_isNumeral (args arg)
      exact ⟨_, hcomes (by decide), fieldOf_paddedField false hnum decDigit_chars (by simp)
        (fun h => BitVec.eq_of_toNat_eq h) (parseU32_dec hnum) rfl⟩
    · rw [convert_x] at hcomes
      have hnum := fmtU32Hex_isNumeral (args arg)
      obtain ⟨digits, hdigits, hvalue⟩ := hnum.value
      exact ⟨_, hcomes (by decide), fieldOf_paddedField false hnum hexDigit_chars (by simp)
        (fun h => BitVec.eq_of_toNat_eq h) (parseU32_hex hnum.ne_nil hdigits hvalue) rfl⟩
    · rw [convert_d] at hcomes
      have hnum := fmtU32Dec_isNumeral (if (args arg).toInt < 0 then 0#32 - args arg else args arg)
      refine ⟨_, hcomes (by decide), fieldOf_paddedField _ hnum decDigit_chars (by simp)
        (fun h => ?_) (parseU32_dec hnum) ?_⟩
      · have hzero := BitVec.eq_of_toNat_eq (x := if (args arg).toInt < 0 then 0#32 - args arg else args arg)
          (y := 0#32) h
        split at hzero
        · simpa using hzero
        · exact hzero
      · by_cases hneg : (args arg).toInt < 0
        · rw [if_pos (decide_eq_true hneg), if_pos hneg]
          simp
        · rw [if_neg (by simpa using hneg), if_neg hneg]
  · subst hconv
    obtain ⟨digits, hdigits, hlength, hvalue⟩ := printHexU32Width_spec (args arg)
    have hlist : (printHexU32Width (args arg) 8).length = 8 := hdigits.length_eq.trans hlength
    refine ⟨printHexU32Width (args arg) 8, hcomes (by decide), hlist, ?_⟩
    exact parseU32_hex (List.ne_nil_of_length_eq_add_one hlist) hdigits hvalue

/-- The format `"%06d"` with the argument -12. -/
theorem printed_number_reads_back_d : ∃ field,
    PrintsAt (fun _ => []) (fun i => [0x25#8, 0x30#8, 0x36#8, 0x64#8].getD i 0#8) (fun _ => -12#32) 0 4 0
      field ∧ FieldOf [0x30#8] 6 0x64#8 (-12#32) field :=
  (printed_number_reads_back (fun _ => []) _ (fun _ => -12#32) 0 0 [0x30#8] [0x36#8] 0x64#8
    ⟨by decide, by decide, by decide, rfl⟩ ⟨rfl, rfl, rfl, rfl, trivial⟩).1 (by decide) (by decide)

end Microkernel.Core
