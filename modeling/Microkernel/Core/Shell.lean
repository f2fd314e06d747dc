import Microkernel.Core.Formats
import Microkernel.Core.ReadLine
import Microkernel.Core.Tokenize

/-! # The shell

`shell_run` of `shell.c`: a prompt, a line, and what its words say. The commands are a parameter: what they do
to the kernel, to the line that `argv` points into, and what they print. A command need not return.

* **`Command`** — what a command is to the shell: a change of what it is given, or no return.
* **`shellDispatch`** — comparison of the first word with the names of the table, in its order, with
  `streq` reading both strings in memory.
* **`Obeyed`, `Session`** — what the shell is for, over the typed lines and with no buffer in it: each
  line is shown behind the prompt, cut into words and obeyed, until a command does not return.
-/

namespace Microkernel.Core

open Function (update)

/-! ### The table of commands -/

/-- The commands. -/
inductive Command where
  | cls | shutdown | cmds | mmap | free | pmm | vmm | heap | vma | ring3
  deriving DecidableEq

/-- `name` of a `cmd_t`. -/
def Command.name : Command → List U8
  | .cls => cString "cls"
  | .shutdown => cString "shutdown"
  | .cmds => cString "cmds"
  | .mmap => cString "mmap"
  | .free => cString "free"
  | .pmm => cString "pmm"
  | .vmm => cString "vmm"
  | .heap => cString "heap"
  | .vma => cString "vma"
  | .ring3 => cString "ring3"

/-- `g_cmds`. -/
def gCmds : List Command := [.cls, .shutdown, .cmds, .mmap, .free, .pmm, .vmm, .heap, .vma, .ring3]

/-- A string constant in memory. -/
def constant (s : List U8) (i : ℕ) : U8 := s.getD i 0#8

/-- The loop of `streq(a, b)` for strings that are not `NULL`, over the two pointers. -/
def streqLoop (a b : ℕ → U8) : WhileLoop (ℕ × ℕ) Bool where
  test s := a s.1 ≠ 0#8 ∧ b s.2 ≠ 0#8
  body s := if a s.1 ≠ b s.2 then .inl false else .inr (s.1 + 1, s.2 + 1)
  exit s := a s.1 = 0#8 ∧ b s.2 = 0#8

/-- The loop of `shell_dispatch` over the table: the command with the name at `argv[0]`. -/
def findCommand (line : ℕ → U8) (name : ℕ) (rounds : ℕ) : List Command → Option (Option Command)
  | [] => some none
  | cmd :: cmds =>
      ((streqLoop line (constant cmd.name)).run rounds (name, 0)).result.bind fun same =>
        if same then some (some cmd) else findCommand line name rounds cmds

/-! ### A line -/

section
variable {K : Type*}

/-- What a command does, called with a line and the words in it: the kernel and the line after it, and what it
has sent to the terminal. -/
abbrev Exec (K : Type*) := Command → (ℕ → U8) → List ℕ → K → Option (K × (ℕ → U8) × List U8)

/-- The strings that `%s` finds in the line, which is at an address of the stack. -/
def stringsIn (line : ℕ → U8) (addr : ℕ) (p : U32) : List U8 :=
  ((List.range 128).map fun i => line (p.toNat - addr + i)).takeWhile (· ≠ 0#8)

/-- `shell_dispatch` behind its loop over the table: the call of the command, or the message. -/
def runFound (exec : Exec K) (addr : ℕ) (line : ℕ → U8) (k : K) (rounds name : ℕ) (argv : List ℕ) :
    Option Command → Option (K × (ℕ → U8) × List U8)
  | some cmd => exec cmd line (name :: argv) k
  | none =>
      (vprintk (stringsIn line addr) (constant (cString "Unknown command: %s\n"))
        (fun _ => BitVec.ofNat 32 (addr + name)) rounds).result.map fun out =>
          (k, line, out.flatMap serialPutc)

/-- `shell_dispatch` from the words on. -/
def runWords (exec : Exec K) (addr : ℕ) (line : ℕ → U8) (k : K) (rounds : ℕ) :
    List ℕ → Option (K × (ℕ → U8) × List U8)
  | [] => some (k, line, [])
  | name :: argv =>
      (findCommand line name rounds gCmds).bind (runFound exec addr line k rounds name argv)

/-- `shell_dispatch(line)`. -/
def shellDispatch (exec : Exec K) (addr : ℕ) (line : ℕ → U8) (k : K) (rounds : ℕ) :
    Option (K × (ℕ → U8) × List U8) :=
  if line 0 = 0#8 then some (k, line, [])
  else (shellTokenize line 16 rounds).result.bind fun r => runWords exec addr r.1 k rounds r.2

/-- The shell: the polls of the console that were made, the buffer for a line, the kernel, and what was sent to
the terminal. -/
structure Shell (K : Type*) where
  polls : ℕ
  line : ℕ → U8
  kernel : K
  output : List U8

/-- One round of the loop of `shell_run`. -/
def shellRound (poll : ℕ → Poll) (exec : Exec K) (addr : ℕ) (rounds : ℕ) (s : Shell K) : Option (Shell K) :=
  (shellReadline (fun i => poll (s.polls + i)) s.line 128 rounds).result.bind fun t =>
    (shellDispatch exec addr t.buf s.kernel rounds).map fun r =>
      ⟨s.polls + t.polls, r.2.1, r.1,
        s.output ++ (cString "szy-kernel > ").flatMap serialPutc ++ t.echo ++ r.2.2⟩

/-- A number of rounds of `shell_run`, in each of which no loop needs more than some rounds. -/
def shellRun (poll : ℕ → Poll) (exec : Exec K) (addr : ℕ) (rounds : ℕ) : ℕ → Shell K → Option (Shell K)
  | 0, s => some s
  | n + 1, s => (shellRun poll exec addr rounds n s).bind (shellRound poll exec addr rounds)

/-- The start of `shell_run`. -/
def Shell.start (line : ℕ → U8) (k : K) : Shell K :=
  ⟨0, line, k, (cString "\n" ++ cString "Interactive shell ready.\n").flatMap serialPutc⟩

/-! ### What a shell is for -/

/-- A line is obeyed: without words nothing happens; the first word names the command, which gets the first
sixteen words; a name of no command is reported. -/
inductive Obeyed (exec : Exec K) (line : List U8) (k : K) : K → List U8 → Prop
  | blank : words isSpace line = [] → Obeyed exec line k k []
  | command {name : List U8} {rest : List (List U8)} {cmd : Command} {buf buf' : ℕ → U8} {argv : List ℕ}
      {k' : K} {out : List U8} : words isSpace line = name :: rest → cmd.name = name →
        List.Forall₂ (StringAt 0#8 buf) argv ((name :: rest).take 16) →
        exec cmd buf argv k = some (k', buf', out) → Obeyed exec line k k' out
  | unknown {name : List U8} {rest : List (List U8)} : words isSpace line = name :: rest →
      (∀ cmd : Command, cmd.name ≠ name) →
      Obeyed exec line k k ((cString "Unknown command: " ++ name ++ [0x0A#8]).flatMap serialPutc)

/-- A line whose command does not return. -/
def Stuck (exec : Exec K) (line : List U8) (k : K) : Prop :=
  ∃ (name : List U8) (rest : List (List U8)) (cmd : Command) (buf : ℕ → U8) (argv : List ℕ),
    words isSpace line = name :: rest ∧ cmd.name = name ∧
      List.Forall₂ (StringAt 0#8 buf) argv ((name :: rest).take 16) ∧ exec cmd buf argv k = none

/-- A session: each line is shown behind the prompt as it was typed, and obeyed. -/
inductive Session (exec : Exec K) (k : K) (out : List U8) : List (List U8) → K → List U8 → Prop
  | nil : Session exec k out [] k out
  | line {lines : List (List U8)} {line echo : List U8} {k₁ k₂ : K} {out₁ out₂ : List U8} :
      Session exec k out lines k₁ out₁ → (∀ screen : Screen, screen.Shows (screen.puts echo) line) →
      Obeyed exec line k₁ k₂ out₂ →
      Session exec k out (lines ++ [line]) k₂
        (out₁ ++ (cString "szy-kernel > ").flatMap serialPutc ++ (echo ++ [0x0D#8, 0x0A#8]) ++ out₂)

end

end Microkernel.Core
