import Microkernel.Core.ShellSession
import Microkernel.Drivers.TypedText

/-! # Commands from the keyboard

The keyboard, the interrupt handler, the ring buffer, the reader and the shell together: the lines that are
typed are the lines that are obeyed.

Five modules meet here: the two Shift keys of `Drivers/ShiftKeys`, the ring buffer of `Drivers/Keyboard`,
the polls of `Core/ReadLine`, and the session of `Core/ShellSession`. Nothing arrives over the serial
port.

* **`keyboardConsole`** — the polls that the console makes of the inputs of the keyboard, access by
  access.
* **`typed_session`** — for every history of keys, as long as no Shift key is lost and the shell keeps up
  with the typing.
-/

namespace Microkernel.Kernel

open Microkernel.Core Drivers

/-- The console of a run of the keyboard machine: poll after poll the keyboard answers as its calls did, and
nothing comes over the serial port. -/
def keyboardConsole (inputs : List KeyboardInput) (i : ℕ) : Poll :=
  ⟨(keyboardPolls keyboardMachine.init inputs).getD i none, none⟩

/-- The console brings the characters that were read. -/
theorem keyboardConsole_brings (inputs : List KeyboardInput) :
    (List.range (keyboardPolls keyboardMachine.init inputs).length).filterMap
        (fun i => consoleTryGetc (keyboardConsole inputs i)) =
      (keyboardPolls keyboardMachine.init inputs).reduceOption := by
  unfold keyboardConsole
  generalize keyboardPolls keyboardMachine.init inputs = polls
  have hmap : (List.range polls.length).map (fun i => polls.getD i none) = polls := by
    refine List.ext_getElem (by simp) fun i hi hi' => ?_
    simp [hi']
  have hchar : ∀ i, consoleTryGetc ⟨polls.getD i none, none⟩ = polls.getD i none := by
    intro i
    cases polls.getD i none <;> rfl
  simp only [hchar]
  conv_rhs => rw [List.reduceOption, ← hmap, List.filterMap_map]
  rfl

/-- **What is typed is obeyed.** Keys are pressed and released, their scancodes interrupt between any two
accesses of the polls of the shell, no Shift key is lost and the shell keeps up with the keyboard. Once the
lines that were typed have been read, the shell has shown and obeyed them in order, each as it stood when return
was pressed, up to one whose command does not return. -/
theorem typed_session {K : Type*} (exec : Exec K) (addr : ℕ) (hpos : 0 < addr) (haddr : addr + 128 ≤ 2 ^ 32)
    (line : ℕ → U8) (k : K) (history : List KeyEvent) (hshift : ShiftKept history) (inputs : List KeyboardInput)
    (hinputs : inputs.filterMap KeyboardInput.scancode? = history.flatMap KeyEvent.scancodes)
    (hkeeps : keyboardMachine.init.KeepsUp inputs) (ts : List (List U8)) (hts : ∀ typed ∈ ts, 0x0A#8 ∉ typed)
    (rest : List U8) (htyped : typedText history = ts.flatMap (· ++ [0x0A#8]) ++ rest) :
    ∃ s answers, keyboardMachine.run inputs = some (s, answers) ∧ (s.kbd.unread.length ≤ rest.length →
      ∃ m ≤ ts.length, ∃ t, (∃ R, ∀ rounds, R ≤ rounds →
          shellRun (keyboardConsole inputs) exec addr rounds m (Shell.start line k) = some t) ∧
        Session exec k (Shell.start line k).output ((ts.take m).map (typedLine 127)) t.kernel t.output ∧
        ∀ _ : m < ts.length, Stuck exec (typedLine 127 ts[m]) t.kernel) := by
  obtain ⟨s, answers, hrun, -, hiff⟩ := keyboardMachine_reads inputs keyboardMachine.init
    ⟨⟨[], []⟩, by decide, by decide, rfl, trivial⟩
  refine ⟨s, answers, hrun, fun hread => ?_⟩
  have hall : (keyboardPolls keyboardMachine.init inputs).reduceOption ++ s.kbd.unread =
      ts.flatMap (· ++ [0x0A#8]) ++ rest := by
    rw [← htyped, ← scancodesText_history hshift, ← hinputs]
    exact hiff.mpr hkeeps
  -- what is unread is the end of the rest
  obtain ⟨read, hrest⟩ : ∃ read, rest = read ++ s.kbd.unread :=
    (List.suffix_of_suffix_length_le ⟨_, hall⟩ (List.suffix_append ..) hread).imp fun _ h => h.symm
  rw [hrest, ← List.append_assoc] at hall
  have hpolls := (keyboardConsole_brings inputs).trans (List.append_cancel_right hall)
  exact shellRun_session exec hpos haddr line k hts hpolls

/-- The letter a and return, with the shell polling behind each of them. -/
theorem typed_session_letterA :
    let enter : Key := ⟨0x1C#8, false, by decide, by decide⟩
    let polled : List KeyboardInput := List.replicate 4 .get
    let inputs := .scancode 0x1E#8 :: polled ++ .scancode 0x1C#8 :: polled
    let exec : Exec ℕ := fun _ line _ k => some (k + 1, line, [])
    typedText [.press .letterA, .press enter] = [0x61#8, 0x0A#8] ∧
      ∃ t, (∃ R, ∀ rounds, R ≤ rounds →
          shellRun (keyboardConsole inputs) exec 0x1000 rounds 1 (Shell.start (fun _ => 0#8) 0) = some t) ∧
        Session exec 0 (Shell.start (fun _ => 0#8) 0).output [[0x61#8]] t.kernel t.output := by
  intro enter polled inputs exec
  have hshift : ShiftKept [.press .letterA, .press enter] := by
    rintro past e hpast ⟨⟨⟨key, hkey⟩, -⟩, -⟩
    have hmem := List.mem_of_mem_filter (List.mem_of_getLast? hkey)
    have hpress := hpast.subset (List.mem_append_left _ hmem)
    simp at hpress
  have hkeeps : keyboardMachine.init.KeepsUp inputs := by
    intro past hpast
    have hall : ∀ past ∈ inputs.inits, keyboardMachine.init.kbd.unread.length +
        (scancodesText keyboardMachine.init.kbd.flags (past.filterMap KeyboardInput.scancode?)).length ≤
          (keyboardPolls keyboardMachine.init past).reduceOption.length + 127 := by decide
    exact hall past ((List.mem_inits ..).mpr hpast)
  have htyped : typedText [.press .letterA, .press enter] = [[0x61#8]].flatMap (· ++ [0x0A#8]) ++ [] := by decide
  obtain ⟨s, answers, hrun, hsession⟩ := typed_session exec 0x1000 (by decide) (by decide) (fun _ => 0#8) 0
    [.press .letterA, .press enter] hshift inputs rfl hkeeps [[0x61#8]] (by decide) [] htyped
  have hread : (keyboardMachine.run inputs).map (fun r => r.1.kbd.unread.length) = some 0 := by decide
  rw [hrun] at hread
  obtain ⟨m, hm, t, hshell, hlines, hstuck⟩ := hsession (Option.some.inj hread).le
  obtain rfl : m = 1 := by
    refine Nat.le_antisymm hm (Nat.one_le_iff_ne_zero.mpr fun hzero => ?_)
    obtain ⟨_, _, cmd, buf, argv, -, -, -, hnone⟩ := hstuck (by rw [hzero]; decide)
    exact Option.some_ne_none _ hnone
  exact ⟨htyped, t, hshell, hlines⟩

end Microkernel.Kernel
