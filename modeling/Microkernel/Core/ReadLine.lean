import Microkernel.Lib.Terminal
import Microkernel.Lib.WhileLoop
import Microkernel.Word

/-! # Reading a line

`shell_readline` of `shell.c` on top of the polls of `console.c`. A round of the loop is one poll, with what the
shell does when it brings a character.

* **`Poll`, `LineReader`** — what the keyboard and the serial port answer to a poll, and the variables of
  the function.
* **`LineReader.Holds`** — the buffer and the screen both show the line as typed so far: a backspace takes
  the last character from both, and a character without room is taken by neither.
* **`shellReadline_spec`** — the loop returns with the line that a stack of `cap - 1` places would hold,
  writes no index from `cap` on, and needs no poll behind the newline.
-/

namespace Microkernel.Core

open Function (update)

/-! ### The console -/

/-- What a poll finds: the answers of `keyboard_try_getc` and `serial_try_getc`, `none` for `0`. The serial port
is asked only when the keyboard has nothing. -/
structure Poll where
  keyboard : Option U8
  serial : Option U8

/-- `console_try_getc(out)`. -/
def consoleTryGetc (poll : Poll) : Option U8 :=
  match poll.keyboard with
  | some c => some c
  | none =>
      match poll.serial with
      -- the terminal sends a carriage return for Enter
      | some c => some (if c = 0x0D#8 then 0x0A#8 else c)
      | none => none

/-- The bytes that `serial_putc(c)` sends. -/
def serialPutc (c : U8) : List U8 := if c = 0x0A#8 then [0x0D#8, c] else [c]

/-! ### The shell -/

/-- The variables of `shell_readline`: the polls made so far, `len`, `buf` with the indices that were written,
and what was sent to the terminal. -/
structure LineReader where
  polls : ℕ
  len : ℕ
  buf : ℕ → U8
  writes : List ℕ
  echo : List U8

namespace LineReader

/-- `buf[i] = c`. -/
def store (s : LineReader) (i : ℕ) (c : U8) : LineReader :=
  { s with buf := update s.buf i c, writes := s.writes ++ [i] }

/-- `printk` of a text without a conversion, or of one character with `%c`. -/
def print (s : LineReader) (text : List U8) : LineReader :=
  { s with echo := s.echo ++ text.flatMap serialPutc }

end LineReader

/-- What `shell_readline` does with a character: it returns, or goes on. -/
def readlineChar (cap : ℕ) (c : U8) (s : LineReader) : LineReader ⊕ LineReader :=
  if c = 0x0A#8 then .inl ((s.print [0x0A#8]).store s.len 0#8)
  else if c = 0x08#8 ∨ c = 0x7F#8 then
    if s.len > 0 then
      let s := { s with len := s.len - 1 }
      -- back, over it with a space, and back again
      .inr (s.print [0x08#8, 0x20#8, 0x08#8])
    else .inr s
  else if c < 0x20#8 then .inr s
  -- one place is kept for the terminator
  else if s.len + 1 < cap then
    let s := { s.store s.len c with len := s.len + 1 }
    .inr (s.print [c])
  else .inr s

/-- The loops of `shell_readline` and `console_getc`, which ends with the state that is returned from: its `len`
is the result. -/
def readlineLoop (poll : ℕ → Poll) (cap : ℕ) : WhileLoop LineReader LineReader where
  test _ := true
  body s :=
    match consoleTryGetc (poll s.polls) with
    | none => .inr { s with polls := s.polls + 1 }
    | some c => readlineChar cap c { s with polls := s.polls + 1 }
  exit s := s

/-- `shell_readline(buf, cap)` in a number of rounds. -/
def shellReadline (poll : ℕ → Poll) (buf : ℕ → U8) (cap : ℕ) (rounds : ℕ) : Rounds LineReader LineReader :=
  if cap = 0 then ⟨[], some ⟨0, 0, buf, [], []⟩⟩
  else (readlineLoop poll cap).run rounds ⟨0, 0, buf, [], []⟩

/-! ### A stack of characters -/

/-- A character is typed: backspace and delete pop, other control characters do nothing, and the rest push while
there is room. -/
def typeChar (room : ℕ) (line : List U8) (c : U8) : List U8 :=
  if c = 0x08#8 ∨ c = 0x7F#8 then line.dropLast
  else if c < 0x20#8 then line
  else if line.length < room then line ++ [c]
  else line

/-- The line that is left when a sequence of characters was typed. -/
def typedLine (room : ℕ) (typed : List U8) : List U8 := typed.foldl (typeChar room) []

/-- **The buffer and the screen hold the line**, and nothing was written from `cap` on. -/
structure LineReader.Holds (s : LineReader) (cap : ℕ) (line : List U8) : Prop where
  len : s.len = line.length
  room : line.length < cap
  buf : Reads s.buf 0 line
  writes : ∀ i ∈ s.writes, i < cap
  echo : ∀ screen : Screen, screen.Shows (screen.puts s.echo) line

namespace LineReader.Holds
variable {cap : ℕ} {c : U8} {s : LineReader} {line : List U8}

/-- A character is stored behind the line. -/
theorem stored (h : s.Holds cap line) (c : U8) : Reads (s.store s.len c).buf 0 (line ++ [c]) ∧
    ∀ i ∈ (s.store s.len c).writes, i < cap := by
  refine ⟨reads_append.mpr ⟨h.buf.congr fun i _ hi => ?_, ?_, trivial⟩, fun i hi => ?_⟩
  · refine Function.update_of_ne ?_ ..
    rw [h.len]
    omega
  · rw [Nat.zero_add, ← h.len]
    exact Function.update_self ..
  · rcases List.mem_append.mp hi with hi | hi
    · exact h.writes i hi
    · rw [List.mem_singleton.mp hi, h.len]
      exact h.room

/-- A character is stored and echoed. -/
theorem push (h : s.Holds cap line) (hc : 0x20#8 ≤ c) (hroom : line.length + 1 < cap) :
    Holds (LineReader.print { s.store s.len c with len := s.len + 1 } [c]) cap (line ++ [c]) := by
  have hputc : [c].flatMap serialPutc = [c] := by
    have hne : c ≠ 0x0A#8 := by
      rintro rfl
      exact absurd hc (by decide)
    rw [List.flatMap_singleton, serialPutc, if_neg hne]
  refine ⟨?_, ?_, (h.stored c).1, (h.stored c).2, fun screen => ?_⟩
  · rw [List.length_append, ← h.len]
    rfl
  · rwa [List.length_append]
  · show screen.Shows (screen.puts (s.echo ++ [c].flatMap serialPutc)) _
    rw [hputc, Screen.puts_append]
    exact (h.echo screen).push hc

/-- The last character is dropped and erased. -/
theorem pop (h : s.Holds cap (line ++ [c])) :
    Holds (LineReader.print { s with len := s.len - 1 } [0x08#8, 0x20#8, 0x08#8]) cap line := by
  have hlen := h.len
  have hroom := h.room
  rw [List.length_append, List.length_singleton] at hlen hroom
  refine ⟨?_, by omega, (reads_append.mp h.buf).1, h.writes, fun screen => ?_⟩
  · show s.len - 1 = _
    omega
  · show screen.Shows (screen.puts (s.echo ++ [0x08#8, 0x20#8, 0x08#8].flatMap serialPutc)) _
    rw [show [0x08#8, 0x20#8, 0x08#8].flatMap serialPutc = [0x08#8, 0x20#8, 0x08#8] by decide,
      Screen.puts_append]
    exact (h.echo screen).pop

end LineReader.Holds

/-- **One character** keeps the buffer and the screen in step with the stack. -/
theorem readlineChar_spec {cap : ℕ} {c : U8} {s : LineReader} {line : List U8} (hc : c ≠ 0x0A#8)
    (h : s.Holds cap line) :
    ∃ t, readlineChar cap c s = .inr t ∧ t.polls = s.polls ∧ t.Holds cap (typeChar (cap - 1) line c) := by
  unfold readlineChar typeChar
  rw [if_neg hc]
  by_cases hback : c = 0x08#8 ∨ c = 0x7F#8
  · rw [if_pos hback, if_pos hback]
    rcases List.eq_nil_or_concat line with rfl | ⟨line, c', rfl⟩
    · exact ⟨s, if_neg (by simp [h.len]), rfl, h⟩
    · rw [List.concat_eq_append] at h ⊢
      rw [List.dropLast_concat]
      exact ⟨_, if_pos (by simp [h.len]), rfl, h.pop⟩
  rw [if_neg hback, if_neg hback]
  by_cases hcontrol : c < 0x20#8
  · rw [if_pos hcontrol, if_pos hcontrol]
    exact ⟨s, rfl, rfl, h⟩
  rw [if_neg hcontrol, if_neg hcontrol]
  by_cases hroom : line.length < cap - 1
  · rw [if_pos hroom, if_pos (by rw [h.len]; omega)]
    exact ⟨_, rfl, rfl, h.push (BitVec.not_lt.mp hcontrol) (by omega)⟩
  · rw [if_neg hroom, if_neg (by rw [h.len]; omega)]
    exact ⟨s, rfl, rfl, h⟩

/-- **A line was read**: `len` is its length, the buffer holds it with the terminator, nothing was written from
`cap` on, and the terminal shows it when the cursor goes to the next row. -/
structure LineReader.Returned (t : LineReader) (cap : ℕ) (line : List U8) : Prop where
  len : t.len = line.length
  buf : Reads t.buf 0 (line ++ [0#8])
  writes : ∀ i ∈ t.writes, i < cap
  echo : ∃ echo, t.echo = echo ++ [0x0D#8, 0x0A#8] ∧
    ∀ screen : Screen, screen.Shows (screen.puts echo) line

/-- The newline terminates the line. -/
theorem readlineChar_newline {cap : ℕ} {s : LineReader} {line : List U8} (h : s.Holds cap line) :
    ∃ t, readlineChar cap 0x0A#8 s = .inl t ∧ t.Returned cap line :=
  ⟨_, rfl, h.len, (h.stored 0#8).1, (h.stored 0#8).2, s.echo, rfl, h.echo⟩

/-- **The loop on a stream** of polls that bring characters and then a newline. -/
theorem readlineLoop_spec {poll : ℕ → Poll} {cap n : ℕ} {typed : List U8} (htyped : 0x0A#8 ∉ typed)
    {s : LineReader} {line : List U8}
    (hpolls : (List.range n).filterMap (fun i => consoleTryGetc (poll (s.polls + i))) = typed ++ [0x0A#8])
    (h : s.Holds cap line) : ∃ t, (∃ rounds, ((readlineLoop poll cap).run rounds s).result = some t) ∧
      t.Returned cap (typed.foldl (typeChar (cap - 1)) line) := by
  induction n generalizing s typed line with
  | zero => exact absurd hpolls.symm (List.append_ne_nil_of_right_ne_nil _ (List.cons_ne_nil _ _))
  | succ n ih =>
    have hlater : ((fun i => consoleTryGetc (poll (s.polls + i))) ∘ Nat.succ) =
        fun i => consoleTryGetc (poll (s.polls + 1 + i)) := by
      funext i
      exact congrArg (fun j => consoleTryGetc (poll j)) (by omega)
    rw [List.range_succ_eq_map, List.filterMap_cons, Nat.add_zero, List.filterMap_map, hlater] at hpolls
    have hpolled : LineReader.Holds { s with polls := s.polls + 1 } cap line :=
      ⟨h.len, h.room, h.buf, h.writes, h.echo⟩
    have hbody : (readlineLoop poll cap).body s = match consoleTryGetc (poll s.polls) with
      | none => .inr { s with polls := s.polls + 1 }
      | some c => readlineChar cap c { s with polls := s.polls + 1 } := rfl
    cases hc : consoleTryGetc (poll s.polls) with
    | none =>
      rw [hc] at hpolls hbody
      obtain ⟨t, ⟨rounds, hrun⟩, ht⟩ := ih htyped hpolls hpolled
      exact ⟨t, ⟨rounds + 1, by rw [WhileLoop.run_next ⟨rfl, hbody⟩]; exact hrun⟩, ht⟩
    | some c =>
      rw [hc] at hpolls hbody
      dsimp only at hpolls hbody
      cases typed with
      | nil =>
        obtain ⟨rfl, -⟩ := List.cons.inj hpolls
        obtain ⟨t, hleave, ht⟩ := readlineChar_newline hpolled
        exact ⟨t, ⟨1, by rw [WhileLoop.run_leave rfl (hbody.trans hleave)]⟩, ht⟩
      | cons c' typed =>
        obtain ⟨rfl, hrest⟩ := List.cons.inj hpolls
        rw [List.mem_cons, not_or] at htyped
        obtain ⟨u, hnext, hpos, hu⟩ := readlineChar_spec (Ne.symm htyped.1) hpolled
        obtain ⟨t, ⟨rounds, hrun⟩, ht⟩ := ih (s := u) htyped.2 (by rw [hpos]; exact hrest) hu
        exact ⟨t, ⟨rounds + 1, by rw [WhileLoop.run_next ⟨rfl, hbody.trans hnext⟩]; exact hrun⟩, ht⟩

/-- **The line that was typed**: for every `cap ≥ 1` and every sequence of polls that brings characters and then
a newline, `shell_readline` returns with the line that a stack of at most `cap - 1` characters holds, in the
buffer and on the terminal. -/
theorem shellReadline_spec (poll : ℕ → Poll) (buf : ℕ → U8) (cap : ℕ) (hcap : 1 ≤ cap) (n : ℕ)
    (typed : List U8) (htyped : 0x0A#8 ∉ typed)
    (hpolls : (List.range n).filterMap (fun i => consoleTryGetc (poll i)) = typed ++ [0x0A#8]) :
    ∃ rounds t, (shellReadline poll buf cap rounds).result = some t ∧
      t.Returned cap (typedLine (cap - 1) typed) := by
  have hstart : LineReader.Holds ⟨0, 0, buf, [], []⟩ cap [] :=
    ⟨rfl, hcap, trivial, fun i hi => absurd hi List.not_mem_nil, fun screen => screen.shows_nil⟩
  obtain ⟨t, ⟨rounds, hrun⟩, ht⟩ := readlineLoop_spec htyped (s := ⟨0, 0, buf, [], []⟩)
    (by simpa only [Nat.zero_add] using hpolls) hstart
  refine ⟨rounds, t, ?_, ht⟩
  unfold shellReadline
  rw [if_neg (by omega)]
  exact hrun

/-- Typing `ab`, delete, `cde` and return from the serial port, with room for three characters. -/
theorem shellReadline_spec_ace : ∃ rounds t,
    (shellReadline (fun i => ⟨none, [0x61#8, 0x62#8, 0x7F#8, 0x63#8, 0x64#8, 0x65#8, 0x0D#8][i]?⟩)
      (fun _ => 0xFF#8) 4 rounds).result = some t ∧ t.Returned 4 [0x61#8, 0x63#8, 0x64#8] :=
  shellReadline_spec _ _ 4 (by decide) 7 [0x61#8, 0x62#8, 0x7F#8, 0x63#8, 0x64#8, 0x65#8] (by decide)
    (by decide)

end Microkernel.Core
