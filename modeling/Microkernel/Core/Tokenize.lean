import Microkernel.Lib.NulString
import Microkernel.Lib.WhileLoop
import Microkernel.Lib.Words
import Microkernel.Word
import Mathlib.Data.List.Forall2
import Mathlib.Data.List.TakeWhile
import Mathlib.Logic.Function.Basic

/-! # The words of a command line

`shell_tokenize` of `shell.c` cuts a line into words in place: the separator behind a word is overwritten with
the terminator. A round of the loops looks at one character.

* **`Tokenizer`, `TokenPhase`** — the position, the line and the entries of `argv`; and which of the three
  inner loops a round belongs to.
* **`Cuts`** — a line before and a line after, with the entries: each of them points at its word, and what
  changed is a separator behind one.
* **`shellTokenize_spec`** — the entries are the words of the line in their order, as many as `argv_cap`
  lets in, and a separator behind a word is the only character that is overwritten.
-/

namespace Microkernel.Core

open Function (update)

/-- `is_space(c)`. -/
def isSpace (c : U8) : Bool := c = 0x20#8 ∨ c = 0x09#8 ∨ c = 0x0D#8 ∨ c = 0x0A#8

/-- In which of its loops `shell_tokenize` is. -/
inductive TokenPhase where
  /-- The outer loop. -/
  | line
  /-- The loop over the separators in front of a word. -/
  | spaces
  /-- The loop over a word. -/
  | word

/-- The variables of `shell_tokenize`: the position `p`, the line, and the entries of `argv`, of which there
are `argc`. -/
structure Tokenizer where
  phase : TokenPhase
  p : ℕ
  line : ℕ → U8
  argv : List ℕ

/-- The loops of `shell_tokenize(line, argv, argv_cap)`, with the line and `argv` as the result. -/
def tokenizeLoop (cap : ℤ) : WhileLoop Tokenizer ((ℕ → U8) × List ℕ) where
  test _ := true
  body s :=
    let c := s.line s.p
    match s.phase with
    | .line => if c = 0#8 then .inl (s.line, s.argv) else .inr { s with phase := .spaces }
    | .spaces =>
        if c ≠ 0#8 ∧ isSpace c then .inr { s with p := s.p + 1 }
        else if c = 0#8 then .inl (s.line, s.argv)
        else if s.argv.length ≥ cap then .inl (s.line, s.argv)
        else .inr { s with phase := .word, argv := s.argv ++ [s.p] }
    | .word =>
        if c ≠ 0#8 ∧ ¬ isSpace c then .inr { s with p := s.p + 1 }
        else if c ≠ 0#8 then .inr ⟨.line, s.p + 1, update s.line s.p 0#8, s.argv⟩
        else .inr { s with phase := .line }
  exit s := (s.line, s.argv)

/-- `shell_tokenize(line, argv, argv_cap)` in a number of rounds. -/
def shellTokenize (line : ℕ → U8) (cap : ℤ) (rounds : ℕ) : Rounds Tokenizer ((ℕ → U8) × List ℕ) :=
  if cap ≤ 0 then ⟨[], some (line, [])⟩ else (tokenizeLoop cap).run rounds ⟨.line, 0, line, []⟩

/-! ### Runs of characters -/

section Runs
variable {cap : ℤ} {p : ℕ} {line : ℕ → U8} {argv : List ℕ} {l : List U8}

/-- Separators are skipped. -/
theorem comes_spaces (hread : Reads line p l) (hl : ∀ c ∈ l, isSpace c = true) :
    (tokenizeLoop cap).Comes ⟨.spaces, p, line, argv⟩ ⟨.spaces, p + l.length, line, argv⟩ := by
  induction l generalizing p with
  | nil => exact .refl
  | cons c l ih =>
    obtain ⟨hc, hread⟩ := hread
    obtain ⟨hspace, hrest⟩ := List.forall_mem_cons.mp hl
    rw [List.length_cons, Nat.add_comm l.length, ← Nat.add_assoc]
    have h0 : c ≠ 0#8 := by
      rintro rfl
      exact absurd hspace (by decide)
    subst hc
    exact .head ⟨rfl, if_pos ⟨h0, hspace⟩⟩ (ih hread hrest)

/-- The characters of a word are skipped. -/
theorem comes_word (hread : Reads line p l) (hl : ∀ c ∈ l, isSpace c = false) (h0 : 0#8 ∉ l) :
    (tokenizeLoop cap).Comes ⟨.word, p, line, argv⟩ ⟨.word, p + l.length, line, argv⟩ := by
  induction l generalizing p with
  | nil => exact .refl
  | cons c l ih =>
    obtain ⟨hc, hread⟩ := hread
    obtain ⟨hspace, hrest⟩ := List.forall_mem_cons.mp hl
    rw [List.mem_cons, not_or] at h0
    rw [List.length_cons, Nat.add_comm l.length, ← Nat.add_assoc]
    subst hc
    exact .head ⟨rfl, if_pos ⟨Ne.symm h0.1, by simp [hspace]⟩⟩ (ih hread hrest h0.2)

end Runs

/-- **A line cut into words**: from the line before, in which a string lies at `p`, and the line after, with the
entries that are new in `argv` and the room that was in it. -/
structure Cuts (line line' : ℕ → U8) (p room : ℕ) (s : List U8) (new : List ℕ) : Prop where
  /-- Each entry is where the next word lies, terminated. -/
  tokens : List.Forall₂ (StringAt 0#8 line') new ((words isSpace s).take room)
  /-- A character that changed was a separator and is the terminator of a word. -/
  changed : ∀ j, line' j ≠ line j → p ≤ j ∧ isSpace (line j) = true ∧ line' j = 0#8 ∧
    j ∈ List.zipWith (fun q w => q + w.length) new (words isSpace s)

/-- A line begins with separators and a word; the word is missing at the end of the line only. -/
theorem exists_word (l : List U8) : ∃ s w r, l = s ++ (w ++ r) ∧ (∀ c ∈ s, isSpace c = true) ∧
    (∀ c ∈ w, isSpace c = false) ∧ (w = [] → r = []) ∧ ∀ c ∈ r.head?, isSpace c = true := by
  have hhead : ∀ (sep : U8 → Bool) (l : List U8), ∀ c ∈ (l.dropWhile sep).head?, sep c = false := by
    intro sep l c hc
    have hnot := List.head?_dropWhile_not sep l
    rwa [Option.mem_def.mp hc] at hnot
  obtain ⟨t, ht⟩ : ∃ t, l.dropWhile isSpace = t := ⟨_, rfl⟩
  refine ⟨l.takeWhile isSpace, t.takeWhile (! isSpace ·), t.dropWhile (! isSpace ·), ?_, ?_, ?_, ?_, ?_⟩
  · rw [List.takeWhile_append_dropWhile, ← ht, List.takeWhile_append_dropWhile]
  · exact fun c hc => List.mem_takeWhile_imp hc
  · exact fun c hc => by simpa using List.mem_takeWhile_imp hc
  · intro hw
    cases t with
    | nil => rfl
    | cons c t =>
      have hc := hhead isSpace l c (by rw [ht]; rfl)
      rw [List.takeWhile_cons, hc] at hw
      exact absurd hw (List.cons_ne_nil _ _)
  · exact fun c hc => by simpa using hhead (! isSpace ·) t c hc

section Cuts
variable {line line' : ℕ → U8} {p room : ℕ} {s w r : List U8} {new : List ℕ}

/-- Nothing is cut when no word is left or no room. -/
theorem cuts_nil (h : words isSpace s = [] ∨ room = 0) : Cuts line line p room s [] := by
  refine ⟨?_, fun j hj => absurd rfl hj⟩
  rcases h with h | rfl
  · rw [h, List.take_nil]
    exact .nil
  · exact .nil

/-- The last word of a line is terminated already. -/
theorem cuts_last (hs : ∀ c ∈ s, isSpace c = true) (hw : ∀ c ∈ w, isSpace c = false) (hne : w ≠ [])
    (hline : StringAt 0#8 line (p + s.length) w) (hroom : room ≠ 0) :
    Cuts line line p room (s ++ w) [p + s.length] := by
  refine ⟨?_, fun j hj => absurd rfl hj⟩
  obtain ⟨room, rfl⟩ := Nat.exists_eq_succ_of_ne_zero hroom
  rw [words_append_of_sep hs, words_eq_singleton hw hne, List.take_succ_cons, List.take_nil]
  exact .cons hline .nil

/-- **A word is cut off**, and the rest of the line behind its separator is cut. -/
theorem Cuts.cons {c : U8} (hs : ∀ c ∈ s, isSpace c = true) (hw : ∀ c ∈ w, isSpace c = false)
    (hne : w ≠ []) (hc : isSpace c = true) (hline : StringAt 0#8 line p (s ++ (w ++ c :: r)))
    (h : Cuts (update line (p + s.length + w.length) 0#8) line' (p + s.length + w.length + 1) room r new) :
    Cuts line line' p (room + 1) (s ++ (w ++ c :: r)) ((p + s.length) :: new) := by
  obtain ⟨-, -, hline⟩ := stringAt_append.mp hline
  obtain ⟨hword, h0, hrest⟩ := stringAt_append.mp hline
  obtain ⟨hsep, -, -⟩ := stringAt_cons.mp hrest
  -- from the word on to its terminator nothing changes any more
  have hkeep : ∀ j, j ≤ p + s.length + w.length →
      line' j = update line (p + s.length + w.length) 0#8 j := by
    intro j hj
    by_contra hne
    have hle := (h.changed j hne).1
    omega
  have hwords : words isSpace (s ++ (w ++ c :: r)) = w :: words isSpace r := by
    rw [words_append_of_sep hs, words_append_cons hw hne hc]
  refine ⟨?_, fun j hj => ?_⟩
  · rw [hwords, List.take_succ_cons]
    refine .cons ⟨reads_append.mpr ⟨hword.congr fun j _ hlt => ?_, ?_, trivial⟩, h0⟩ h.tokens
    · rw [hkeep j hlt.le, Function.update_of_ne hlt.ne]
    · rw [hkeep _ le_rfl, Function.update_self]
  · rw [hwords, List.zipWith_cons_cons, List.mem_cons]
    by_cases hlater : line' j = update line (p + s.length + w.length) 0#8 j
    · obtain rfl : j = p + s.length + w.length := by
        by_contra hne
        exact hj (hlater.trans (Function.update_of_ne hne ..))
      rw [hlater, hsep]
      exact ⟨by omega, hc, Function.update_self .., .inl rfl⟩
    · obtain ⟨hle, hspace, hzero, hmem⟩ := h.changed j hlater
      rw [Function.update_of_ne (by omega)] at hspace
      exact ⟨by omega, hspace, hzero, .inr hmem⟩

end Cuts

/-! ### The whole line -/

section Line
variable {cap : ℤ} {p : ℕ} {line : ℕ → U8} {argv : List ℕ} {s w r : List U8}

/-- The separators in front of a word are skipped, unless the line ends at once. -/
theorem comes_spaces_end (hline : StringAt 0#8 line p (s ++ (w ++ r))) (hs : ∀ c ∈ s, isSpace c = true)
    (hp : line p ≠ 0#8) :
    (tokenizeLoop cap).Comes ⟨.line, p, line, argv⟩ ⟨.spaces, p + s.length, line, argv⟩ :=
  .head ⟨rfl, if_neg hp⟩ (comes_spaces (stringAt_append.mp hline).1 hs)

/-- The first character of a word. -/
theorem word_head (hline : StringAt 0#8 line p (s ++ (w ++ r))) (hw : ∀ c ∈ w, isSpace c = false)
    (hne : w ≠ []) : line (p + s.length) ≠ 0#8 ∧ isSpace (line (p + s.length)) = false := by
  obtain ⟨hread, h0, -⟩ := stringAt_append.mp (stringAt_append.mp hline).2.2
  obtain ⟨c, l, rfl⟩ := List.exists_cons_of_ne_nil hne
  rw [hread.1]
  exact ⟨fun hc => h0 (hc ▸ List.mem_cons_self), hw c List.mem_cons_self⟩

/-- Without a word or without room the loops are left. -/
theorem tokenizeLoop_stops (hline : StringAt 0#8 line p (s ++ (w ++ r))) (hs : ∀ c ∈ s, isSpace c = true)
    (hw : ∀ c ∈ w, isSpace c = false) (hwr : w = [] → r = []) (h : w = [] ∨ cap ≤ argv.length) :
    ∃ n, ((tokenizeLoop cap).run n ⟨.line, p, line, argv⟩).result = some (line, argv) := by
  by_cases hp : line p = 0#8
  · exact ⟨1, WhileLoop.Ends.run (.inl ⟨rfl, if_pos hp⟩) 0⟩
  refine (comes_spaces_end hline hs hp).exists_result_iff.mpr ⟨1, WhileLoop.Ends.run (.inl ⟨rfl, ?_⟩) 0⟩
  rcases eq_or_ne w [] with rfl | hne
  · obtain rfl := hwr rfl
    have hend := (stringAt_append.mp hline).2.2.head
    exact (if_neg fun h => h.1 hend).trans (if_pos hend)
  · obtain ⟨h0, hspace⟩ := word_head hline hw hne
    refine (if_neg fun h => ?_).trans ((if_neg h0).trans (if_pos (h.resolve_left hne)))
    exact Bool.false_ne_true (hspace.symm.trans h.2)

/-- With room the loops come to the end of the word, which is then in `argv`. -/
theorem comes_word_end (hline : StringAt 0#8 line p (s ++ (w ++ r))) (hs : ∀ c ∈ s, isSpace c = true)
    (hw : ∀ c ∈ w, isSpace c = false) (hne : w ≠ []) (hroom : argv.length < cap) :
    (tokenizeLoop cap).Comes ⟨.line, p, line, argv⟩
      ⟨.word, p + s.length + w.length, line, argv ++ [p + s.length]⟩ := by
  have hp : line p ≠ 0#8 := by
    intro hp
    have hhead := hline.head.symm.trans hp
    obtain ⟨c, l, hl⟩ := List.exists_cons_of_ne_nil (l := s ++ (w ++ r)) (by simp [hne])
    rw [hl] at hline hhead
    exact (stringAt_cons.mp hline).2.1 hhead
  obtain ⟨h0, hspace⟩ := word_head hline hw hne
  obtain ⟨hread, hw0, -⟩ := stringAt_append.mp (stringAt_append.mp hline).2.2
  refine (comes_spaces_end hline hs hp).trans (.head ⟨rfl, ?_⟩ (comes_word hread hw hw0))
  refine (if_neg fun h => ?_).trans ((if_neg h0).trans (if_neg (not_le.mpr hroom)))
  exact Bool.false_ne_true (hspace.symm.trans h.2)

end Line

/-- **From the outer loop on**, a string at `p` is cut into words while there is room. -/
theorem tokenizeLoop_spec (cap : ℤ) (argv : List ℕ) {t : List U8} {p : ℕ} {line : ℕ → U8}
    (ht : StringAt 0#8 line p t) : ∃ line' new,
      (∃ n, ((tokenizeLoop cap).run n ⟨.line, p, line, argv⟩).result = some (line', argv ++ new)) ∧
        Cuts line line' p (cap - argv.length).toNat t new := by
  induction hn : t.length using Nat.strong_induction_on generalizing t p line argv with
  | _ n ih =>
    subst hn
    obtain ⟨s, w, r, rfl, hs, hw, hwr, hr⟩ := exists_word t
    by_cases hstop : w = [] ∨ cap ≤ argv.length
    · obtain ⟨n, hn⟩ := tokenizeLoop_stops ht hs hw hwr hstop
      refine ⟨line, [], ⟨n, by rwa [List.append_nil]⟩, cuts_nil (hstop.imp (fun hnil => ?_) fun hle => ?_)⟩
      · rw [hnil, hwr hnil, words_append_of_sep hs]
        rfl
      · omega
    rw [not_or, not_le] at hstop
    obtain ⟨hne, hroom⟩ := hstop
    have hto := comes_word_end ht hs hw hne hroom
    obtain ⟨-, -, hword⟩ := stringAt_append.mp ht
    obtain ⟨-, -, hrest⟩ := stringAt_append.mp hword
    rcases r with _ | ⟨c, r⟩
    · -- the terminator of the line is the one of the word
      have hend : line (p + s.length + w.length) = 0#8 := stringAt_nil.mp hrest
      have hback : (tokenizeLoop cap).Comes ⟨.line, p, line, argv⟩
          ⟨.line, p + s.length + w.length, line, argv ++ [p + s.length]⟩ :=
        hto.tail ⟨rfl, (if_neg fun h => h.1 hend).trans (if_neg (not_not.mpr hend))⟩
      refine ⟨line, [p + s.length], hback.exists_result_iff.mpr ⟨1, ?_⟩, ?_⟩
      · exact WhileLoop.Ends.run (.inl ⟨rfl, if_pos hend⟩) 0
      · rw [List.append_nil] at hword ⊢
        exact cuts_last hs hw hne hword (by omega)
    · obtain ⟨hc, hc0, hrest⟩ := stringAt_cons.mp hrest
      have hspace := hr c rfl
      have hend : line (p + s.length + w.length) ≠ 0#8 ∧ isSpace (line (p + s.length + w.length)) = true := by
        rw [hc]
        exact ⟨hc0, hspace⟩
      have hback : (tokenizeLoop cap).Comes ⟨.line, p, line, argv⟩
          ⟨.line, p + s.length + w.length + 1, update line (p + s.length + w.length) 0#8,
            argv ++ [p + s.length]⟩ :=
        hto.tail ⟨rfl, (if_neg fun h => h.2 hend.2).trans (if_pos hend.1)⟩
      have hrest' : StringAt 0#8 (update line (p + s.length + w.length) 0#8)
          (p + s.length + w.length + 1) r :=
        ⟨hrest.1.congr fun j hle _ => Function.update_of_ne (by omega) .., hrest.2⟩
      obtain ⟨line', new, hresult, hcuts⟩ := ih r.length (by simp; omega) _ hrest' rfl
      refine ⟨line', (p + s.length) :: new, hback.exists_result_iff.mpr ?_, ?_⟩
      · rwa [List.append_assoc] at hresult
      · have hone : (cap - argv.length).toNat = (cap - (argv ++ [p + s.length]).length).toNat + 1 := by
          rw [List.length_append, List.length_singleton]
          omega
        rw [hone]
        exact .cons hs hw hne hspace ht hcuts

/-- **A line is cut into its words**: `shell_tokenize` returns, with the smaller of `argv_cap` and the number of
words as `argc`; each entry of `argv` is, read as a string in the modified line, the next word of the line; and
a character that changed was the separator directly behind one of these words and is now the terminator. -/
theorem shellTokenize_spec (line : ℕ → U8) (s : List U8) (hs : StringAt 0#8 line 0 s) (cap : ℤ)
    (hcap : 0 < cap) : ∃ n line' argv, (shellTokenize line cap n).result = some (line', argv) ∧
      (argv.length : ℤ) = min cap (words isSpace s).length ∧
      List.Forall₂ (StringAt 0#8 line') argv ((words isSpace s).take cap.toNat) ∧
      ∀ j, line' j ≠ line j → isSpace (line j) = true ∧ line' j = 0#8 ∧
        j ∈ List.zipWith (fun q w => q + w.length) argv (words isSpace s) := by
  obtain ⟨line', argv, ⟨n, hn⟩, hcuts⟩ := tokenizeLoop_spec cap [] hs
  rw [List.length_nil, Nat.cast_zero, sub_zero] at hcuts
  refine ⟨n, line', argv, ?_, ?_, hcuts.tokens, fun j hj => (hcuts.changed j hj).2⟩
  · unfold shellTokenize
    rw [if_neg (by omega)]
    exact hn
  · have hlength := hcuts.tokens.length_eq
    rw [List.length_take] at hlength
    omega

/-- The line `" ls -l"` with room for one word. -/
theorem shellTokenize_spec_one : ∃ n line' argv,
    (shellTokenize (fun i => [0x20#8, 0x6C#8, 0x73#8, 0x20#8, 0x2D#8, 0x6C#8].getD i 0#8) 1 n).result =
      some (line', argv) ∧ List.Forall₂ (StringAt 0#8 line') argv [[0x6C#8, 0x73#8]] := by
  obtain ⟨n, line', argv, hresult, -, htokens, -⟩ := shellTokenize_spec
    (fun i => [0x20#8, 0x6C#8, 0x73#8, 0x20#8, 0x2D#8, 0x6C#8].getD i 0#8)
    [0x20#8, 0x6C#8, 0x73#8, 0x20#8, 0x2D#8, 0x6C#8] (by simp) 1 (by decide)
  exact ⟨n, line', argv, hresult, htokens⟩

end Microkernel.Core
