import Microkernel.Core.Printk
import Mathlib.Data.List.Forall2
import Mathlib.Data.Nat.Digits.Defs

/-! # The numbers of the commands

`cmd_pmm.c`, `cmd_vmm.c` and `cmd_vma.c` each have a copy of `parse_u32`. It reads decimal numbers and, behind
`0x`, hexadecimal ones; its accumulator has 32 bits and is not checked for overflow.

* **`Denotes`** — the number that a string stands for, by the value of its digits, with no bound on it.
* **`parseU32_spec`** — the parser accepts exactly the strings that denote a number, and stores it modulo
  `2 ^ 32`.
* **`parseU32_right_iff`** — so it is right unless the number has no place in 32 bits: `"4294967296"` is
  accepted as zero.
-/

namespace Microkernel.Cmds

open Microkernel.Core (cString)

/-- `is_digit(c)`. -/
def isDigit (c : U8) : Bool := c ≥ 0x30#8 ∧ c ≤ 0x39#8

/-- `hex_val(c)`. -/
def hexVal (c : U8) : ℤ :=
  if c ≥ 0x30#8 ∧ c ≤ 0x39#8 then c.toNat - 0x30
  else if c ≥ 0x61#8 ∧ c ≤ 0x66#8 then 10 + (c.toNat - 0x61)
  else if c ≥ 0x41#8 ∧ c ≤ 0x46#8 then 10 + (c.toNat - 0x41)
  else -1

/-- The loop of `parse_u32` behind `0x`. -/
def parseHex : U32 → List U8 → Option U32
  | v, [] => some v
  | v, c :: s =>
      let hv := hexVal c
      if hv < 0 then none else parseHex ((v <<< 4) ||| BitVec.ofInt 32 hv) s

/-- The loop of `parse_u32` for a decimal number. -/
def parseDec : U32 → List U8 → Option U32
  | v, [] => some v
  | v, c :: s => if ¬ isDigit c then none else parseDec (v * 10#32 + (c - 0x30#8).setWidth 32) s

/-- `parse_u32(s, out)`: what `*out` is afterwards, and the result. A pointer `none` is `NULL`. -/
def parseU32 (s : Option (List U8)) (out : Option U32) : Option U32 × ℤ :=
  match s, out with
  | none, _ => (out, 0)
  | _, none => (out, 0)
  | some [], _ => (out, 0)
  | some (c :: s), some _ =>
      if c = 0x30#8 ∧ (s.head? = some 0x78#8 ∨ s.head? = some 0x58#8) then
        if s.tail = [] then (out, 0)
        else
          match parseHex 0#32 s.tail with
          | none => (out, 0)
          | some v => (some v, 1)
      else
        match parseDec 0#32 (c :: s) with
        | none => (out, 0)
        | some v => (some v, 1)

/-! ### Numerals -/

/-- The character stands for the digit in an alphabet. -/
def DigitIn (alphabet : List U8) (c : U8) (d : ℕ) : Prop := alphabet[d]? = some c

/-- A decimal digit. -/
def DecDigit (c : U8) (d : ℕ) : Prop := DigitIn (cString "0123456789") c d

/-- A hexadecimal digit in either case. -/
def HexDigit (c : U8) (d : ℕ) : Prop :=
  DigitIn (cString "0123456789abcdef") c d ∨ DigitIn (cString "0123456789ABCDEF") c d

/-- The number that a string denotes: decimal digits, or `0x` or `0X` and hexadecimal digits, the most
significant first and at least one of them. -/
inductive Denotes : List U8 → ℕ → Prop
  | dec {s : List U8} {digits : List ℕ} : s ≠ [] → List.Forall₂ DecDigit s digits →
      Denotes s (Nat.ofDigits 10 digits.reverse)
  | hex {x : U8} {s : List U8} {digits : List ℕ} : x = 0x78#8 ∨ x = 0x58#8 → s ≠ [] →
      List.Forall₂ HexDigit s digits → Denotes (0x30#8 :: x :: s) (Nat.ofDigits 16 digits.reverse)

/-- The parser accepts exactly the strings that denote a number below `2 ^ 32`, with that number, and leaves
`*out` alone for every other string. -/
def ParsesRight (s : List U8) (out : U32) : Prop :=
  (∀ n, Denotes s n → n < 2 ^ 32 → parseU32 (some s) (some out) = (some (BitVec.ofNat 32 n), 1)) ∧
    ((¬ ∃ n, Denotes s n ∧ n < 2 ^ 32) → parseU32 (some s) (some out) = (some out, 0))

/-! ### Digits -/

/-- An alphabet that is given by the codes of its digits. -/
theorem digitIn_iff {alphabet : List U8} {n : ℕ} {code : ℕ → U8} (h : alphabet = (List.range n).map code)
    {c : U8} {d : ℕ} : DigitIn alphabet c d ↔ d < n ∧ code d = c := by
  unfold DigitIn
  rw [h, List.getElem?_map]
  by_cases hd : d < n <;> simp [hd]

/-- The codes of the decimal digits. -/
theorem decDigit_iff_code {c : U8} {d : ℕ} : DecDigit c d ↔ d < 10 ∧ BitVec.ofNat 8 (0x30 + d) = c :=
  have halphabet : cString "0123456789" = (List.range 10).map fun d => BitVec.ofNat 8 (0x30 + d) := by
    decide +kernel
  digitIn_iff halphabet

/-- The codes of the hexadecimal digits. -/
theorem hexDigit_iff_code {c : U8} {d : ℕ} : HexDigit c d ↔
    d < 16 ∧ (BitVec.ofNat 8 (if d < 10 then 0x30 + d else 0x57 + d) = c ∨
      BitVec.ofNat 8 (if d < 10 then 0x30 + d else 0x37 + d) = c) := by
  have hlower : cString "0123456789abcdef" =
      (List.range 16).map fun d => BitVec.ofNat 8 (if d < 10 then 0x30 + d else 0x57 + d) := by
    decide +kernel
  have hupper : cString "0123456789ABCDEF" =
      (List.range 16).map fun d => BitVec.ofNat 8 (if d < 10 then 0x30 + d else 0x37 + d) := by
    decide +kernel
  unfold HexDigit
  rw [digitIn_iff hlower, digitIn_iff hupper, ← and_or_left]

/-- The digits of the lower case alphabet. -/
theorem hexDigit_getD {d : ℕ} (hd : d < 16) : HexDigit ((cString "0123456789abcdef").getD d 0#8) d := by
  have hlength : (cString "0123456789abcdef").length = 16 := by decide +kernel
  refine .inl ?_
  unfold DigitIn
  rw [List.getD_eq_getElem?_getD, List.getElem?_eq_getElem (by omega), Option.getD_some]

/-- A hexadecimal digit is less than 16. -/
theorem HexDigit.lt {c : U8} {d : ℕ} (h : HexDigit c d) : d < 16 := (hexDigit_iff_code.mp h).1

/-- `is_digit` knows the decimal digits, and subtracting `'0'` gives their values. -/
theorem decDigit_iff {c : U8} {d : ℕ} : DecDigit c d ↔ isDigit c = true ∧ d = (c - 0x30#8).toNat := by
  unfold isDigit
  rw [decDigit_iff_code, decide_eq_true_iff, ge_iff_le]
  constructor
  · rintro ⟨hd, rfl⟩
    bv_omega
  · rintro ⟨hc, rfl⟩
    bv_omega

/-- `hex_val` knows the hexadecimal digits and their values. -/
theorem hexDigit_iff {c : U8} {d : ℕ} : HexDigit c d ↔ hexVal c = d := by
  rw [hexDigit_iff_code]
  unfold hexVal
  constructor
  · rintro ⟨hd, hc⟩
    by_cases h10 : d < 10
    · rw [if_pos h10, if_pos h10, or_self] at hc
      have hrange : c ≥ 0x30#8 ∧ c ≤ 0x39#8 := by bv_omega
      rw [if_pos hrange]
      bv_omega
    · rw [if_neg h10, if_neg h10] at hc
      have hrange : ¬ (c ≥ 0x30#8 ∧ c ≤ 0x39#8) := by bv_omega
      rw [if_neg hrange]
      rcases hc with hc | hc
      · have hlower : c ≥ 0x61#8 ∧ c ≤ 0x66#8 := by bv_omega
        rw [if_pos hlower]
        bv_omega
      · have hlower : ¬ (c ≥ 0x61#8 ∧ c ≤ 0x66#8) := by bv_omega
        have hupper : c ≥ 0x41#8 ∧ c ≤ 0x46#8 := by bv_omega
        rw [if_neg hlower, if_pos hupper]
        bv_omega
  · intro h
    split at h
    · have h10 : d < 10 := by bv_omega
      rw [if_pos h10]
      bv_omega
    split at h
    · have h10 : ¬ d < 10 := by bv_omega
      rw [if_neg h10]
      bv_omega
    split at h
    · have h10 : ¬ d < 10 := by bv_omega
      rw [if_neg h10, if_neg h10]
      bv_omega
    · omega

/-- The digits of a numeral are determined. -/
theorem decDigit_unique : Relator.RightUnique DecDigit :=
  fun _ _ _ h h' => (decDigit_iff.mp h).2.trans (decDigit_iff.mp h').2.symm

/-- A character is one hexadecimal digit at most. -/
theorem hexDigit_unique : Relator.RightUnique HexDigit :=
  fun _ _ _ h h' => Int.natCast_inj.mp ((hexDigit_iff.mp h).symm.trans (hexDigit_iff.mp h'))

/-- The string begins with `0x` or `0X`. -/
def HexPrefixed (s : List U8) : Prop :=
  s.head? = some 0x30#8 ∧ (s.tail.head? = some 0x78#8 ∨ s.tail.head? = some 0x58#8)

/-- Such a string denotes what the hexadecimal digits behind the prefix denote. -/
theorem denotes_iff_of_hexPrefixed {s : List U8} {n : ℕ} (h : HexPrefixed s) : Denotes s n ↔
    s.tail.tail ≠ [] ∧
      ∃ digits, List.Forall₂ HexDigit s.tail.tail digits ∧ n = Nat.ofDigits 16 digits.reverse := by
  constructor
  · intro hs
    cases hs with
    | dec _ hs =>
      -- the letter of the prefix is no decimal digit
      rcases hs with _ | ⟨-, _ | ⟨hx, -⟩⟩
      · exact absurd h.1 (by simp)
      · exact absurd h.2 (by simp)
      · have hdigit := (decDigit_iff.mp hx).1
        rcases h.2 with hx | hx <;> obtain rfl := Option.some.inj hx <;> exact absurd hdigit (by decide)
    | hex _ hne hs => exact ⟨hne, _, hs, rfl⟩
  · rintro ⟨hne, digits, hs, rfl⟩
    rcases s with _ | ⟨c, _ | ⟨x, s⟩⟩
    · exact absurd h.1 (by simp)
    · exact absurd rfl hne
    · obtain rfl := Option.some.inj h.1
      exact .hex (h.2.imp Option.some.inj Option.some.inj) hne hs

/-- Every other string denotes what its decimal digits denote. -/
theorem denotes_iff_of_not_hexPrefixed {s : List U8} {n : ℕ} (h : ¬ HexPrefixed s) : Denotes s n ↔
    s ≠ [] ∧ ∃ digits, List.Forall₂ DecDigit s digits ∧ n = Nat.ofDigits 10 digits.reverse := by
  constructor
  · intro hs
    cases hs with
    | dec hne hs => exact ⟨hne, _, hs, rfl⟩
    | hex hx _ _ => exact absurd ⟨rfl, hx.imp (congrArg some) (congrArg some)⟩ h
  · rintro ⟨hne, digits, hs, rfl⟩
    exact .dec hne hs

/-- **A string denotes one number at most.** -/
theorem Denotes.unique {s : List U8} {n n' : ℕ} (h : Denotes s n) (h' : Denotes s n') : n = n' := by
  by_cases hs : HexPrefixed s
  · obtain ⟨-, digits, hd, rfl⟩ := (denotes_iff_of_hexPrefixed hs).mp h
    obtain ⟨-, digits', hd', rfl⟩ := (denotes_iff_of_hexPrefixed hs).mp h'
    rw [hexDigit_unique.forall₂ hd hd']
  · obtain ⟨-, digits, hd, rfl⟩ := (denotes_iff_of_not_hexPrefixed hs).mp h
    obtain ⟨-, digits', hd', rfl⟩ := (denotes_iff_of_not_hexPrefixed hs).mp h'
    rw [decDigit_unique.forall₂ hd hd']

/-! ### The loops -/

/-- A loop over digits: a digit goes into the accumulator as in the value of a numeral, modulo `2 ^ 32`, and
anything else fails. -/
theorem digitLoop_spec {loop : U32 → List U8 → Option U32} {Digit : U8 → ℕ → Prop} {base : ℕ}
    (hnil : ∀ v, loop v [] = some v)
    (hdigit : ∀ c d s a, Digit c d →
      loop (BitVec.ofNat 32 a) (c :: s) = loop (BitVec.ofNat 32 (d + base * a)) s)
    (hother : ∀ v c s, (¬ ∃ d, Digit c d) → loop v (c :: s) = none) (s : List U8) : ∀ a,
    (∀ digits, List.Forall₂ Digit s digits → loop (BitVec.ofNat 32 a) s =
      some (BitVec.ofNat 32 (digits.foldl (fun a d => d + base * a) a))) ∧
    ((¬ ∃ digits, List.Forall₂ Digit s digits) → loop (BitVec.ofNat 32 a) s = none) := by
  induction s with
  | nil =>
    refine fun a => ⟨fun digits h => ?_, fun h => absurd ⟨[], .nil⟩ h⟩
    cases h
    exact hnil _
  | cons c s ih =>
    intro a
    by_cases hc : ∃ d, Digit c d
    · obtain ⟨d, hd⟩ := hc
      refine ⟨fun digits h => ?_, fun h => ?_⟩
      · cases h with
        | cons hd' hs => rw [hdigit _ _ _ _ hd', List.foldl_cons, (ih _).1 _ hs]
      · rw [hdigit _ _ _ _ hd]
        exact (ih _).2 fun ⟨digits, hs⟩ => h ⟨d :: digits, .cons hd hs⟩
    · refine ⟨fun digits h => ?_, fun _ => hother _ c s hc⟩
      cases h with
      | cons hd _ => exact absurd ⟨_, hd⟩ hc

/-- The value of a numeral, digit by digit. -/
theorem ofDigits_reverse (base : ℕ) (digits : List ℕ) :
    Nat.ofDigits base digits.reverse = digits.foldl (fun a d => d + base * a) 0 := by
  rw [Nat.ofDigits_eq_foldr, List.foldr_reverse]
  rfl

/-- The decimal loop. -/
theorem parseDec_spec (s : List U8) :
    (∀ digits, List.Forall₂ DecDigit s digits →
      parseDec 0#32 s = some (BitVec.ofNat 32 (Nat.ofDigits 10 digits.reverse))) ∧
    ((¬ ∃ digits, List.Forall₂ DecDigit s digits) → parseDec 0#32 s = none) := by
  simp only [ofDigits_reverse]
  refine digitLoop_spec (fun _ => rfl) (fun c d s a hd => ?_) (fun v c s hc => ?_) s 0
  · obtain ⟨hc, rfl⟩ := decDigit_iff.mp hd
    rw [parseDec, if_neg (by simpa using hc)]
    congr 1
    apply BitVec.eq_of_toNat_eq
    simp [Nat.add_comm, Nat.mul_comm]
  · exact if_pos fun h => hc ⟨_, decDigit_iff.mpr ⟨h, rfl⟩⟩

/-- Shifting by four bits and setting them is the step of base 16. -/
theorem shiftLeft_or_digit {a d : ℕ} (hd : d < 16) :
    BitVec.ofNat 32 a <<< 4 ||| BitVec.ofNat 32 d = BitVec.ofNat 32 (d + 16 * a) := by
  -- the four low bits are free for the digit
  have hhigh : (BitVec.ofNat 32 a <<< 4).toNat = (a % 2 ^ 28) <<< 4 := by
    rw [BitVec.toNat_shiftLeft, BitVec.toNat_ofNat, Nat.shiftLeft_eq, Nat.shiftLeft_eq]
    omega
  apply BitVec.eq_of_toNat_eq
  rw [BitVec.toNat_or, hhigh, BitVec.toNat_ofNat, BitVec.toNat_ofNat,
    Nat.mod_eq_of_lt (hd.trans (by decide)), ← Nat.shiftLeft_add_eq_or_of_lt hd, Nat.shiftLeft_eq]
  omega

/-- The hexadecimal loop. -/
theorem parseHex_spec (s : List U8) :
    (∀ digits, List.Forall₂ HexDigit s digits →
      parseHex 0#32 s = some (BitVec.ofNat 32 (Nat.ofDigits 16 digits.reverse))) ∧
    ((¬ ∃ digits, List.Forall₂ HexDigit s digits) → parseHex 0#32 s = none) := by
  simp only [ofDigits_reverse]
  refine digitLoop_spec (fun _ => rfl) (fun c d s a hd => ?_) (fun v c s hc => ?_) s 0
  · rw [parseHex, hexDigit_iff.mp hd, if_neg (by omega), BitVec.ofInt_natCast,
      shiftLeft_or_digit hd.lt]
  · refine if_pos (lt_of_not_ge fun h => hc ⟨(hexVal c).toNat, hexDigit_iff.mpr ?_⟩)
    exact (Int.toNat_of_nonneg h).symm

/-! ### The parser -/

/-- The answer of the parser from the result of a loop. -/
def parseAnswer (out : U32) : Option U32 → Option U32 × ℤ
  | none => (some out, 0)
  | some v => (some v, 1)

/-- Which loop the parser takes. -/
theorem parseU32_eq {s : List U8} (hne : s ≠ []) (out : U32) :
    (HexPrefixed s → s.tail.tail = [] → parseU32 (some s) (some out) = (some out, 0)) ∧
      (HexPrefixed s → s.tail.tail ≠ [] →
        parseU32 (some s) (some out) = parseAnswer out (parseHex 0#32 s.tail.tail)) ∧
      (¬ HexPrefixed s → parseU32 (some s) (some out) = parseAnswer out (parseDec 0#32 s)) := by
  obtain ⟨c, s, rfl⟩ := List.exists_cons_of_ne_nil hne
  have hprefixed : HexPrefixed (c :: s) ↔
      c = 0x30#8 ∧ (s.head? = some 0x78#8 ∨ s.head? = some 0x58#8) := by
    unfold HexPrefixed
    rw [List.head?_cons, Option.some_inj, List.tail_cons]
  rw [hprefixed, List.tail_cons]
  exact ⟨fun h ht => (if_pos h).trans (if_pos ht), fun h ht => (if_pos h).trans (if_neg ht),
    fun h => if_neg h⟩

/-- **What the parser does**: it accepts the strings that denote a number, whatever its size, and stores the
number modulo `2 ^ 32`; it rejects all others. -/
theorem parseU32_spec (s : List U8) (out : U32) :
    (∀ n, Denotes s n → parseU32 (some s) (some out) = (some (BitVec.ofNat 32 n), 1)) ∧
      ((¬ ∃ n, Denotes s n) → parseU32 (some s) (some out) = (some out, 0)) := by
  rcases eq_or_ne s [] with rfl | hne
  · refine ⟨fun n h => ?_, fun _ => rfl⟩
    cases h with
    | dec hne _ => exact absurd rfl hne
  obtain ⟨hempty, hhex, hdec⟩ := parseU32_eq hne out
  by_cases hs : HexPrefixed s
  · simp only [denotes_iff_of_hexPrefixed hs]
    refine ⟨?_, fun h => ?_⟩
    · rintro n ⟨hdigits, digits, hd, rfl⟩
      rw [hhex hs hdigits, (parseHex_spec _).1 digits hd]
      rfl
    · rcases eq_or_ne s.tail.tail [] with hnil | hdigits
      · exact hempty hs hnil
      · rw [hhex hs hdigits, (parseHex_spec _).2 fun ⟨digits, hd⟩ => h ⟨_, hdigits, digits, hd, rfl⟩]
        rfl
  · simp only [denotes_iff_of_not_hexPrefixed hs]
    refine ⟨?_, fun h => ?_⟩
    · rintro n ⟨-, digits, hd, rfl⟩
      rw [hdec hs, (parseDec_spec _).1 digits hd]
      rfl
    · rw [hdec hs, (parseDec_spec _).2 fun ⟨digits, hd⟩ => h ⟨_, hne, digits, hd, rfl⟩]
      rfl

/-- **When the parser is right**: unless the string denotes a number that does not fit in 32 bits. -/
theorem parseU32_right_iff (s : List U8) (out : U32) :
    ParsesRight s out ↔ ¬ ∃ n, Denotes s n ∧ 2 ^ 32 ≤ n := by
  obtain ⟨haccept, hreject⟩ := parseU32_spec s out
  constructor
  · rintro ⟨-, hother⟩ ⟨n, hn, hle⟩
    have hnone := hother fun ⟨n', hn', hlt⟩ => absurd (hn.unique hn') (by omega)
    rw [haccept n hn] at hnone
    exact absurd (Prod.mk.inj hnone).2 (by decide)
  · intro h
    refine ⟨fun n hn _ => haccept n hn, fun hnone => hreject fun ⟨n, hn⟩ => ?_⟩
    rcases Nat.lt_or_ge n (2 ^ 32) with hlt | hle
    · exact hnone ⟨n, hn, hlt⟩
    · exact h ⟨n, hn, hle⟩

/-- `"4294967296"` is accepted as 0. -/
theorem parseU32_wraps : Denotes (cString "4294967296") (2 ^ 32) ∧
    parseU32 (some (cString "4294967296")) (some 7#32) = (some 0#32, 1) ∧
    ¬ ParsesRight (cString "4294967296") 7#32 := by
  have hdenotes : Denotes (cString "4294967296") (2 ^ 32) := by
    refine (denotes_iff_of_not_hexPrefixed (by unfold HexPrefixed; decide +kernel)).mpr
      ⟨by decide +kernel, [4, 2, 9, 4, 9, 6, 7, 2, 9, 6], ?_, by decide⟩
    rw [show cString "4294967296" = [0x34#8, 0x32#8, 0x39#8, 0x34#8, 0x39#8, 0x36#8, 0x37#8, 0x32#8,
      0x39#8, 0x36#8] by decide +kernel]
    simp only [List.forall₂_cons, List.forall₂_nil_right_iff, decDigit_iff]
    decide
  have hparse : parseU32 (some (cString "4294967296")) (some 7#32) = (some 0#32, 1) := by decide +kernel
  refine ⟨hdenotes, hparse, fun h => ?_⟩
  have hnone := h.2 fun ⟨n, hn, hlt⟩ => absurd (hdenotes.unique hn) hlt.ne'
  rw [hparse] at hnone
  exact absurd (Prod.mk.inj hnone).2 (by decide)

end Microkernel.Cmds
