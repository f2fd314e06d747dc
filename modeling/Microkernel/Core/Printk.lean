import Microkernel.Lib.NulString
import Microkernel.Lib.WhileLoop
import Microkernel.Word
import Mathlib.Data.List.TakeWhile

/-! # Formatted output

`printk.c`: the number printers and the scanner of format strings. A round of the scanner looks at one
character of the format, so that the states in which a round begins show every character that is read. The
output is what is handed to `serial_putc`.

* **`Scan`, `Phase`** — the position in the format, the number of arguments taken and what was printed;
  and whether the scanner is among characters, flags or digits.
* **`Complete`** — no conversion breaks off behind its flags or its width.
* **`vprintk_reads_iff`** — exactly then the scanner reads nothing behind the terminator. A format that
  ends inside a conversion leads it over the terminator into what happens to lie there.
-/

namespace Microkernel.Core

/-! ### Numbers -/

/-- The bytes of a string constant. -/
def cString (s : String) : List U8 := s.toUTF8.toList.map UInt8.toBitVec

/-- The digit loop of `fmt_u32_hex` over `tmp[8]`, least digit first. -/
def hexDigits : ℕ → U32 → List U8
  | 0, _ => []
  | n + 1, value =>
      if value > 0#32 then
        (cString "0123456789abcdef").getD (value &&& 0xF#32).toNat 0#8 :: hexDigits n (value >>> 4)
      else []

/-- `fmt_u32_hex(out, value)`. -/
def fmtU32Hex (value : U32) : List U8 :=
  if value = 0#32 then cString "0" else (hexDigits 8 value).reverse

/-- The digit loop of `fmt_u32_dec` over `tmp[10]`, least digit first. -/
def decDigits : ℕ → U32 → List U8
  | 0, _ => []
  | n + 1, value =>
      if value > 0#32 then
        (0x30#32 + value % 10#32).setWidth 8 :: decDigits n (value / 10#32)
      else []

/-- `fmt_u32_dec(out, value)`. -/
def fmtU32Dec (value : U32) : List U8 :=
  if value = 0#32 then cString "0" else (decDigits 10 value).reverse

/-- `fmt_int_dec(out, value)`. -/
def fmtIntDec (value : U32) : List U8 :=
  if value.toInt < 0 then cString "-" ++ fmtU32Dec (0#32 - value) else fmtU32Dec value

/-- `serial_write_padded(s, len, width, left_align, pad)`, where `len` is the length of `s`. -/
def serialWritePadded (s : List U8) (width : ℤ) (leftAlign : Bool) (pad : U8) : List U8 :=
  let width := if width < 0 then 0 else width
  let padding := if width > s.length then width - s.length else 0
  (if ¬ leftAlign then List.replicate padding.toNat pad else []) ++ s ++
    if leftAlign then List.replicate padding.toNat 0x20#8 else []

/-- `print_hex_u32_width(num, width)`. -/
def printHexU32Width (num : U32) (width : ℤ) : List U8 :=
  let width := if width ≤ 0 then 1 else width
  let width := if width > 8 then 8 else width
  (List.range width.toNat).reverse.map fun i =>
    (cString "0123456789abcdef").getD ((num >>> (i * 4)) &&& 0xF#32).toNat 0#8

/-! ### The scanner -/

/-- `is_digit(c)`. -/
def isDigit (c : U8) : Bool := c ≥ 0x30#8 ∧ c ≤ 0x39#8

/-- Where the scanner is. -/
inductive Phase where
  /-- Between two conversions. -/
  | text
  /-- Behind a `%`. -/
  | percent
  /-- Among the flags. -/
  | flags (leftAlign : Bool) (pad : U8)
  /-- In the width. -/
  | width (leftAlign : Bool) (pad : U8) (width : U32)
  /-- At the conversion character. -/
  | spec (leftAlign : Bool) (pad : U8) (width : U32)

/-- The scanner: its place in the format, how many arguments are taken, and the output. -/
structure Scan where
  phase : Phase
  pos : ℕ
  arg : ℕ
  output : List U8

/-- The `switch` on the conversion character: what is printed, and the arguments taken. The strings that `%s`
can be given are a parameter. -/
def convert (strings : U32 → List U8) (args : ℕ → U32) (leftAlign : Bool) (pad : U8) (width : ℤ)
    (spec : U8) (arg : ℕ) : List U8 × ℕ :=
  if spec = 0x25#8 then ([0x25#8], arg)
  else if spec = 0x64#8 then
    let buf := fmtIntDec (args arg)
    -- a negative number that is padded with zeros: first the sign, then the zeros
    if pad = 0x30#8 ∧ ¬ leftAlign ∧ width > buf.length ∧ buf.length > 0 ∧ buf.head? = some 0x2D#8 then
      (0x2D#8 :: List.replicate (width - buf.length).toNat 0x30#8 ++ buf.tail, arg + 1)
    else (serialWritePadded buf width leftAlign pad, arg + 1)
  else if spec = 0x75#8 then (serialWritePadded (fmtU32Dec (args arg)) width leftAlign pad, arg + 1)
  else if spec = 0x78#8 then (serialWritePadded (fmtU32Hex (args arg)) width leftAlign pad, arg + 1)
  else if spec = 0x70#8 then (cString "0x" ++ printHexU32Width (args arg) 8, arg + 1)
  else if spec = 0x73#8 then
    let out := if args arg = 0#32 then cString "(null)" else strings (args arg)
    (serialWritePadded out width leftAlign pad, arg + 1)
  else if spec = 0x63#8 then (serialWritePadded [(args arg).setWidth 8] width leftAlign pad, arg + 1)
  -- an unknown conversion is printed as it stands and takes no argument
  else ([0x25#8, spec], arg)

/-- The loops of `vprintk(fmt, args)` as one, for a format that is not `NULL`. -/
def vprintkLoop (strings : U32 → List U8) (fmt : ℕ → U8) (args : ℕ → U32) : WhileLoop Scan (List U8) where
  test _ := true
  body s :=
    let c := fmt s.pos
    match s.phase with
    | .text =>
        if c = 0#8 then .inl s.output
        else if c ≠ 0x25#8 then .inr { s with pos := s.pos + 1, output := s.output ++ [c] }
        else .inr { s with phase := .percent, pos := s.pos + 1 }
    | .percent =>
        -- a `%` at the very end stands for itself; nothing is read behind the terminator
        if c = 0#8 then .inl (s.output ++ [0x25#8])
        else .inr { s with phase := .flags false 0x20#8 }
    | .flags leftAlign pad =>
        if c = 0x2D#8 then .inr { s with phase := .flags true pad, pos := s.pos + 1 }
        else if c = 0x30#8 then .inr { s with phase := .flags leftAlign 0x30#8, pos := s.pos + 1 }
        else .inr { s with phase := .width leftAlign pad 0#32 }
    | .width leftAlign pad width =>
        if isDigit c then
          .inr { s with
            phase := .width leftAlign pad (width * 10#32 + (c - 0x30#8).setWidth 32), pos := s.pos + 1 }
        else .inr { s with phase := .spec leftAlign (if leftAlign then 0x20#8 else pad) width }
    | .spec leftAlign pad width =>
        -- no test for the terminator here: a format that ends in the flags or the width is read on
        let (printed, arg) := convert strings args leftAlign pad width.toInt c s.arg
        .inr ⟨.text, s.pos + 1, arg, s.output ++ printed⟩
  exit s := s.output

/-- The scanner at the start of a format. -/
def Scan.start : Scan := ⟨.text, 0, 0, []⟩

/-- `vprintk(fmt, args)` in a number of rounds. -/
def vprintk (strings : U32 → List U8) (fmt : ℕ → U8) (args : ℕ → U32) (rounds : ℕ) :
    Rounds Scan (List U8) :=
  (vprintkLoop strings fmt args).run rounds Scan.start

/-! ### Complete formats -/

/-- The flags of a conversion. -/
def IsFlag (c : U8) : Prop := c = 0x2D#8 ∨ c = 0x30#8

instance (c : U8) : Decidable (IsFlag c) := inferInstanceAs (Decidable (_ ∨ _))

/-- Flags and then a width stand in front of the character `spec`, which is neither one more flag nor one more
digit. -/
structure FieldBefore (flags width : List U8) (spec : U8) : Prop where
  isFlag : ∀ c ∈ flags, IsFlag c
  isDigit : ∀ c ∈ width, isDigit c
  head : ∀ c ∈ (width ++ [spec]).head?, ¬ IsFlag c
  spec : Core.isDigit spec = false

/-- **A complete format**: every conversion that has flags or a width has its conversion character. A `%` at
the end of the format stands for itself. -/
inductive Complete : List U8 → Prop
  | nil : Complete []
  | text {c : U8} {s : List U8} : c ≠ 0x25#8 → Complete s → Complete (c :: s)
  | percent : Complete [0x25#8]
  | conversion {flags width : List U8} {spec : U8} {s : List U8} : FieldBefore flags width spec →
      Complete s → Complete (0x25#8 :: flags ++ width ++ spec :: s)

/-! ### How the scanner moves -/

section Scanner
variable {strings : U32 → List U8} {fmt : ℕ → U8} {args : ℕ → U32} {pos arg : ℕ} {output : List U8}
  {leftAlign : Bool} {pad : U8} {w : U32} {s t : Scan}

/-- What the digits of a width add to it. -/
def widthAfter (w : U32) (digits : List U8) : U32 :=
  digits.foldl (fun w c => w * 10#32 + (c - 0x30#8).setWidth 32) w

/-- A character of the text is printed. -/
theorem next_text (h0 : fmt pos ≠ 0#8) (hc : fmt pos ≠ 0x25#8) :
    (vprintkLoop strings fmt args).Next ⟨.text, pos, arg, output⟩
      ⟨.text, pos + 1, arg, output ++ [fmt pos]⟩ :=
  ⟨rfl, (if_neg h0).trans (if_pos hc)⟩

/-- A percent sign starts a conversion. -/
theorem next_percent (hc : fmt pos = 0x25#8) :
    (vprintkLoop strings fmt args).Next ⟨.text, pos, arg, output⟩ ⟨.percent, pos + 1, arg, output⟩ :=
  ⟨rfl, (if_neg (by rw [hc]; decide)).trans (if_neg (not_not.mpr hc))⟩

/-- The flags are skipped. -/
theorem comes_flags {flags : List U8} (hread : Reads fmt pos flags) (hflags : ∀ c ∈ flags, IsFlag c) :
    (vprintkLoop strings fmt args).Comes ⟨.flags leftAlign pad, pos, arg, output⟩
      ⟨.flags (leftAlign || decide (0x2D#8 ∈ flags)) (if 0x30#8 ∈ flags then 0x30#8 else pad),
        pos + flags.length, arg, output⟩ := by
  induction flags generalizing pos leftAlign pad with
  | nil =>
    simp only [List.not_mem_nil, decide_false, Bool.or_false, if_false, List.length_nil, Nat.add_zero]
    exact .refl
  | cons c flags ih =>
    obtain ⟨hc, hread⟩ := hread
    obtain ⟨hflag, hrest⟩ := List.forall_mem_cons.mp hflags
    rw [List.length_cons, Nat.add_comm flags.length, ← Nat.add_assoc]
    rcases hflag with rfl | rfl
    · have hih := @ih _ true pad hread hrest
      refine .head ⟨rfl, if_pos hc⟩ ?_
      simpa using hih
    · have hih := @ih _ leftAlign 0x30#8 hread hrest
      refine .head ⟨rfl, (if_neg (by rw [hc]; decide)).trans (if_pos hc)⟩ ?_
      simpa using hih

/-- The digits of the width are skipped. -/
theorem comes_width {digits : List U8} (hread : Reads fmt pos digits) (hdigits : ∀ c ∈ digits, isDigit c) :
    (vprintkLoop strings fmt args).Comes ⟨.width leftAlign pad w, pos, arg, output⟩
      ⟨.width leftAlign pad (widthAfter w digits), pos + digits.length, arg, output⟩ := by
  induction digits generalizing pos w with
  | nil => exact .refl
  | cons c digits ih =>
    obtain ⟨rfl, hread⟩ := hread
    obtain ⟨hdigit, hrest⟩ := List.forall_mem_cons.mp hdigits
    rw [List.length_cons, Nat.add_comm digits.length, ← Nat.add_assoc]
    exact .head ⟨rfl, if_pos hdigit⟩ (ih hread hrest)

/-- **A conversion is scanned up to its conversion character.** -/
theorem comes_spec {flags width : List U8} (hread : Reads fmt pos (flags ++ width))
    (hfield : FieldBefore flags width (fmt (pos + (flags ++ width).length))) (h0 : fmt pos ≠ 0#8) :
    (vprintkLoop strings fmt args).Comes ⟨.percent, pos, arg, output⟩
      ⟨.spec (decide (0x2D#8 ∈ flags))
          (if 0x2D#8 ∈ flags then 0x20#8 else if 0x30#8 ∈ flags then 0x30#8 else 0x20#8)
          (widthAfter 0#32 width), pos + (flags ++ width).length, arg, output⟩ := by
  obtain ⟨hflags, hwidth⟩ := reads_append.mp hread
  rw [List.length_append, ← Nat.add_assoc] at hfield ⊢
  have hhead : ¬ IsFlag (fmt (pos + flags.length)) := by
    cases width with
    | nil => exact hfield.head _ rfl
    | cons c width =>
      rw [hwidth.1]
      exact hfield.head _ rfl
  have hto : (vprintkLoop strings fmt args).Comes ⟨.percent, pos, arg, output⟩ _ :=
    .head ⟨rfl, if_neg h0⟩ (comes_flags hflags hfield.isFlag)
  refine hto.trans ?_
  rw [Bool.false_or]
  refine .head ⟨rfl, (if_neg fun h => hhead (.inl h)).trans (if_neg fun h => hhead (.inr h))⟩ ?_
  refine Relation.ReflTransGen.tail (comes_width hwidth hfield.isDigit) ⟨rfl, ?_⟩
  refine (if_neg (by rw [hfield.spec]; exact Bool.false_ne_true)).trans ?_
  simp

/-! ### What is read -/

/-- The scanner ends, and reads no character behind `stop`. -/
def ReadsUpTo (strings : U32 → List U8) (fmt : ℕ → U8) (args : ℕ → U32) (stop : ℕ) (s : Scan) : Prop :=
  (∃ n out, ((vprintkLoop strings fmt args).run n s).result = some out) ∧
    ∀ n, ∀ t ∈ ((vprintkLoop strings fmt args).run n s).entered, t.pos ≤ stop

/-- A round does not go back in the format. -/
theorem pos_le_of_next (h : (vprintkLoop strings fmt args).Next s t) : s.pos ≤ t.pos := by
  obtain ⟨phase, pos, arg, output⟩ := s
  obtain ⟨-, h⟩ := h
  unfold vprintkLoop at h
  cases phase <;> dsimp only at h <;> (repeat' split at h) <;> cases h <;> simp

/-- The loop never goes back in the format. -/
theorem pos_le_of_comes (h : (vprintkLoop strings fmt args).Comes s t) : s.pos ≤ t.pos := by
  induction h with
  | refl => exact Nat.le_refl _
  | tail _ h ih => exact ih.trans (pos_le_of_next h)

/-- What is read on the way, for a scanner whose every round reads. -/
theorem readsUpTo_iff {stop : ℕ} : ReadsUpTo strings fmt args stop s ↔
    (∃ n out, ((vprintkLoop strings fmt args).run n s).result = some out) ∧
      ∀ t, (vprintkLoop strings fmt args).Comes s t → t.pos ≤ stop := by
  refine and_congr_right fun _ => ⟨fun h t hc => ?_, fun h n t ht => ?_⟩
  · obtain ⟨n, hn⟩ := WhileLoop.exists_mem_entered_iff.mpr ⟨hc, rfl⟩
    exact h n t hn
  · exact h t (WhileLoop.exists_mem_entered_iff.mp ⟨n, ht⟩).1

/-- Reading ends in time if it does from a state that the scanner comes to in time. -/
theorem readsUpTo_iff_of_comes {stop : ℕ} (h : (vprintkLoop strings fmt args).Comes s t)
    (ht : t.pos ≤ stop) : ReadsUpTo strings fmt args stop s ↔ ReadsUpTo strings fmt args stop t := by
  rw [readsUpTo_iff, readsUpTo_iff]
  refine and_congr ?_ ⟨fun hs u hu => hs u (h.trans hu), fun ht' u hu => ?_⟩
  · rw [exists_comm, exists_comm (α := ℕ)]
    exact exists_congr fun out => h.exists_result_iff
  · rcases h.total hu with htu | hut
    · exact ht' u htu
    · exact (pos_le_of_comes hut).trans ht

/-- The end of a format in the text, or behind a `%`. -/
theorem readsUpTo_end {stop : ℕ} (hs : s.phase = .text ∨ s.phase = .percent) (h0 : fmt s.pos = 0#8)
    (hstop : s.pos ≤ stop) : ReadsUpTo strings fmt args stop s := by
  obtain ⟨out, hout⟩ : ∃ out, (vprintkLoop strings fmt args).body s = .inl out := by
    unfold vprintkLoop
    rcases hs with hs | hs <;> simp [hs, h0]
  have hends : (vprintkLoop strings fmt args).Ends s out := .inl ⟨rfl, hout⟩
  refine readsUpTo_iff.mpr ⟨⟨1, out, hends.run 0⟩, fun t ht => ?_⟩
  rcases ht.cases_head with rfl | ⟨u, hu, -⟩
  · exact hstop
  · exact absurd (hout.symm.trans hu.2) Sum.inl_ne_inr

/-- The conversion character ends the conversion, whatever it is. -/
theorem next_spec (strings : U32 → List U8) (args : ℕ → U32) : ∃ arg' output', (vprintkLoop strings fmt args).Next
    ⟨.spec leftAlign pad w, pos, arg, output⟩ ⟨.text, pos + 1, arg', output'⟩ := ⟨_, _, rfl, rfl⟩

/-- From a `%` that is not the last character, the scanner comes to the text behind the conversion character,
also when that is the end of the format. -/
theorem comes_conversion (arg : ℕ) (output : List U8) {flags width rest : List U8} (hpercent : fmt pos = 0x25#8)
    (hstring : StringAt 0#8 fmt (pos + 1) (flags ++ width ++ rest)) (hne : flags ++ width ++ rest ≠ [])
    (hfield : FieldBefore flags width (rest.headD 0#8)) :
    ∃ arg' output', (vprintkLoop strings fmt args).Comes ⟨.text, pos, arg, output⟩
      ⟨.text, pos + 1 + (flags ++ width).length + 1, arg', output'⟩ := by
  obtain ⟨hread, -, hrest⟩ := stringAt_append.mp hstring
  have h0 : fmt (pos + 1) ≠ 0#8 := by
    obtain ⟨c, l, hl⟩ := List.exists_cons_of_ne_nil hne
    rw [hl, stringAt_cons] at hstring
    rw [hstring.1]
    exact hstring.2.1
  rw [← hrest.head] at hfield
  obtain ⟨arg', output', hnext⟩ := next_spec strings args
  exact ⟨arg', output', .head (next_percent hpercent) ((comes_spec hread hfield h0).tail hnext)⟩

/-- The character that ends a run. -/
theorem headD_dropWhile {p : U8 → Bool} {z : U8} (hz : p z = false) (l : List U8) :
    p ((l.dropWhile p).headD z) = false := by
  have hnot := List.head?_dropWhile_not p l
  cases hl : l.dropWhile p with
  | nil => exact hz
  | cons c r =>
    rw [hl] at hnot
    exact hnot

/-- What follows a `%`: flags, a width and the rest. -/
theorem exists_fieldBefore (s : List U8) : ∃ flags width rest, s = flags ++ width ++ rest ∧
    FieldBefore flags width (rest.headD 0#8) := by
  obtain ⟨r, hr⟩ : ∃ r, s.dropWhile (fun c => decide (IsFlag c)) = r := ⟨_, rfl⟩
  refine ⟨s.takeWhile fun c => decide (IsFlag c), r.takeWhile isDigit, r.dropWhile isDigit, ?_, ?_, ?_, ?_, ?_⟩
  · rw [List.append_assoc, List.takeWhile_append_dropWhile, ← hr, List.takeWhile_append_dropWhile]
  · exact fun c hc => by simpa using List.mem_takeWhile_imp hc
  · exact fun c hc => List.mem_takeWhile_imp hc
  · have hhead : (r.takeWhile isDigit ++ [(r.dropWhile isDigit).headD 0#8]).head? = some (r.headD 0#8) := by
      cases r with
      | nil => rfl
      | cons c r =>
        rw [List.takeWhile_cons, List.dropWhile_cons]
        split <;> rfl
    rintro c hc
    rw [hhead] at hc
    obtain rfl := Option.some.inj hc
    rw [← hr]
    exact of_decide_eq_false (headD_dropWhile (p := fun c => decide (IsFlag c)) (by decide) s)
  · exact headD_dropWhile (by decide) r

/-- A complete format is read up to its end. -/
theorem Complete.readsUpTo {l : List U8} (h : Complete l) {stop : ℕ} (hl : StringAt 0#8 fmt pos l)
    (hstop : pos + l.length ≤ stop) : ReadsUpTo strings fmt args stop ⟨.text, pos, arg, output⟩ := by
  induction h generalizing pos arg output with
  | nil => exact readsUpTo_end (.inl rfl) (stringAt_nil.mp hl) hstop
  | text hc _ ih =>
    obtain ⟨rfl, h0, hl⟩ := stringAt_cons.mp hl
    rw [List.length_cons] at hstop
    refine (readsUpTo_iff_of_comes (.single (next_text h0 hc)) ?_).mpr (ih hl ?_)
    · dsimp only
      omega
    · omega
  | percent =>
    obtain ⟨hc, -, hl⟩ := stringAt_cons.mp hl
    refine (readsUpTo_iff_of_comes (.single (next_percent hc)) hstop).mpr ?_
    exact readsUpTo_end (.inr rfl) (stringAt_nil.mp hl) hstop
  | @conversion flags width spec s hfield _ ih =>
    rw [List.cons_append, List.cons_append] at hl hstop
    obtain ⟨hc, -, hl⟩ := stringAt_cons.mp hl
    obtain ⟨arg', output', hcomes⟩ := comes_conversion arg output hc hl (by simp) hfield
    obtain ⟨-, -, hl⟩ := stringAt_append.mp hl
    rw [List.length_cons, List.length_append, List.length_cons] at hstop
    refine (readsUpTo_iff_of_comes hcomes ?_).mpr (ih (stringAt_cons.mp hl).2.2 ?_)
    · dsimp only
      omega
    · omega

/-- A format that is read up to its end is complete. -/
theorem complete_of_readsUpTo {l : List U8} (hl : StringAt 0#8 fmt pos l)
    (h : ReadsUpTo strings fmt args (pos + l.length) ⟨.text, pos, arg, output⟩) : Complete l := by
  induction hn : l.length using Nat.strong_induction_on generalizing l pos arg output with
  | _ n ih =>
    subst hn
    rcases l with _ | ⟨c, l⟩
    · exact .nil
    obtain ⟨rfl, h0, hl⟩ := stringAt_cons.mp hl
    rw [List.length_cons] at h ih
    by_cases hc : fmt pos = 0x25#8
    · rcases eq_or_ne l [] with rfl | hne
      · rw [hc]
        exact .percent
      obtain ⟨flags, width, rest, rfl, hfield⟩ := exists_fieldBefore l
      obtain ⟨arg', output', hcomes⟩ := comes_conversion _ _ hc hl hne hfield
      rcases rest with _ | ⟨spec, rest⟩
      · -- the conversion character is the terminator, and the scanner goes on behind it
        have hpos := (readsUpTo_iff.mp h).2 _ hcomes
        rw [List.append_nil] at hpos
        dsimp only at hpos
        omega
      · have hpos : pos + ((flags ++ width ++ spec :: rest).length + 1) =
            pos + 1 + (flags ++ width).length + 1 + rest.length := by
          rw [List.length_append, List.length_cons]
          omega
        rw [hpos] at h
        have hrest := (stringAt_cons.mp (stringAt_append.mp hl).2.2).2.2
        have h' := (readsUpTo_iff_of_comes hcomes (Nat.le_add_right ..)).mp h
        rw [hc]
        exact .conversion hfield (ih rest.length (by omega) hrest h' rfl)
    · have htext := (readsUpTo_iff_of_comes (.single (next_text h0 hc)) (by dsimp only; omega)).mp h
      rw [Nat.add_comm l.length, ← Nat.add_assoc] at htext
      exact .text hc (ih _ (Nat.lt_succ_self _) hl htext rfl)

end Scanner

/-- **When the scanner stays in the format**: for every string and whatever lies behind it in memory, `vprintk`
returns and reads no character behind the terminator if and only if the string does not end inside a
conversion after its flags or its width began. -/
theorem vprintk_reads_iff (strings : U32 → List U8) (fmt : ℕ → U8) (args : ℕ → U32) (s : List U8)
    (hs : StringAt 0#8 fmt 0 s) :
    ((∃ n out, (vprintk strings fmt args n).result = some out) ∧
      ∀ n, ∀ t ∈ (vprintk strings fmt args n).entered, t.pos ≤ s.length) ↔ Complete s := by
  have hstop : 0 + s.length = s.length := Nat.zero_add _
  exact ⟨fun h => complete_of_readsUpTo hs (hstop.symm ▸ h), fun h => h.readsUpTo hs hstop.le⟩

/-- The format `"%-d%"`. -/
theorem vprintk_reads_iff_padded :
    (∃ n out, (vprintk (fun _ => []) (fun i => [0x25#8, 0x2D#8, 0x64#8, 0x25#8].getD i 0#8) (fun _ => 7#32)
      n).result = some out) ∧
    ∀ n, ∀ t ∈ (vprintk (fun _ => []) (fun i => [0x25#8, 0x2D#8, 0x64#8, 0x25#8].getD i 0#8) (fun _ => 7#32)
      n).entered, t.pos ≤ 4 := by
  have hfield : FieldBefore [0x2D#8] [] 0x64#8 := ⟨by decide, by decide, by decide, rfl⟩
  exact (vprintk_reads_iff (fun _ => []) _ (fun _ => 7#32) [0x25#8, 0x2D#8, 0x64#8, 0x25#8]
    (by simp)).mpr (.conversion hfield .percent)

/-- The format `"%5"` with `"A"` behind its terminator: both are read. -/
theorem vprintk_reads_behind : StringAt 0#8 (fun i => [0x25#8, 0x35#8, 0#8, 0x41#8].getD i 0#8) 0
      [0x25#8, 0x35#8] ∧
    (vprintk (fun _ => []) (fun i => [0x25#8, 0x35#8, 0#8, 0x41#8].getD i 0#8) (fun _ => 0#32) 10).result =
      some [0x25#8, 0#8, 0x41#8] ∧
    ∃ t ∈ (vprintk (fun _ => []) (fun i => [0x25#8, 0x35#8, 0#8, 0x41#8].getD i 0#8)
      (fun _ => 0#32) 10).entered, t.pos = 3 := by
  refine ⟨by simp, by decide, ?_⟩
  decide

end Microkernel.Core
