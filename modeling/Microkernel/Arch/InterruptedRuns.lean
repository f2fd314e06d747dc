import Microkernel.Arch.Interrupts

/-! # Programs that are interrupted

A program runs while hardware interrupts arrive between any two of its instructions. It does not notice them:
what it computes is what it computes alone. The program may be the user's at level 3 or the kernel's own
code.

* **`HandlerMemory`, `Harmless`** — what handlers may write: data of their own, and the kernel stack below
  what is in use.
* **`Independent`** — a program that does the same whatever stands there.
* **`InterruptedRun`** — a run with an interrupt wherever one may come, and the number of its own
  instructions.
* **`interrupts_invisible`** — by induction on such a run: the program gets as far as it would have alone,
  to a state that differs in the memory of the handlers at most.
-/

namespace Microkernel.Arch

open X86

/-- The memory that handlers may use: data of their own, and the kernel stack from its lowest address up to
what is in use. -/
structure HandlerMemory where
  own : U32 → Prop
  stackLow : ℕ

section
variable (T : Tables) (M : HandlerMemory)

/-- The bytes that may change behind the back of the code that runs in a state. -/
def Volatile (s : Cpu) (b : U32) : Prop :=
  M.own b ∨ M.stackLow ≤ b.toNat ∧ b.toNat < (T.stackFor s).2.toNat

/-- The same registers, and the same memory but for what handlers may use. -/
def SameView (s t : Cpu) : Prop :=
  t = { s with memory := t.memory } ∧ ∀ b, ¬ Volatile T M s b → t.memory b = s.memory b

/-- What a handler does, called in the state `e` for code that was interrupted in the state `s`: it returns,
and writes its own data and the free part of the stack. -/
structure Harmless (s e a : Cpu) : Prop where
  keeps : KeepsFrame s e a
  writes : ∀ b, ¬ M.own b → ¬ (M.stackLow ≤ b.toNat ∧ b.toNat < (e.esp + 4#32).toNat) →
    a.memory b = e.memory b

/-- A hardware interrupt between two instructions: interrupts are enabled, the frame has room on the stack
and the handler is harmless. -/
def Interrupted (s s' : Cpu) : Prop :=
  s.eflags &&& interruptFlag ≠ 0#32 ∧ M.stackLow + 80 ≤ (T.stackFor s).2.toNat ∧
    ∃ (line : Fin 16) (env : CFunction → Cpu → Cpu),
      (∀ e, Called T s (.irq line) none e → Harmless M s e (env .irqHandlerC e)) ∧
      interrupt T env (.irq line) none s = some s'

/-- A run of a program with interrupts anywhere, and how many instructions of the program were executed. -/
inductive InterruptedRun (program : Cpu → Option Cpu) : ℕ → Cpu → Cpu → Prop
  | refl {s : Cpu} : InterruptedRun program 0 s s
  | step {n : ℕ} {s s' s'' : Cpu} :
      InterruptedRun program n s s' → program s' = some s'' → InterruptedRun program (n + 1) s s''
  | interrupt {n : ℕ} {s s' s'' : Cpu} :
      InterruptedRun program n s s' → Interrupted T M s' s'' → InterruptedRun program n s s''

/-- The program alone. -/
def runAlone (program : Cpu → Option Cpu) : ℕ → Cpu → Option Cpu
  | 0, s => some s
  | n + 1, s => (runAlone program n s).bind program

/-- A program that relies on nothing that handlers may use, and whose instructions leave loadable selectors
in the segment registers and do not enter virtual-8086 mode. -/
structure Independent (program : Cpu → Option Cpu) : Prop where
  view : ∀ s t s', SameView T M s t → program s = some s' → ∃ t', program t = some t' ∧ SameView T M s' t'
  loaded : ∀ s s', s.Loaded T → program s = some s' → s'.Loaded T
  notVirtual : ∀ s s', s.eflags &&& virtualFlag = 0#32 → program s = some s' → s'.eflags &&& virtualFlag = 0#32

end

section
variable {T : Tables} {M : HandlerMemory} {s t u : Cpu}

/-- A state has the same view as itself. -/
theorem SameView.refl (s : Cpu) : SameView T M s s := ⟨rfl, fun _ _ => rfl⟩

/-- The view is that of the same registers. -/
theorem SameView.volatile (h : SameView T M s t) (b : U32) : Volatile T M t b ↔ Volatile T M s b := by
  rw [h.1]
  rfl

/-- The same view, seen from the other state. -/
theorem SameView.symm (h : SameView T M s t) : SameView T M t s := by
  refine ⟨?_, fun b hb => (h.2 b fun hs => hb ((h.volatile b).mpr hs)).symm⟩
  rw [h.1]

/-- The same view over a third state. -/
theorem SameView.trans (h : SameView T M s t) (h' : SameView T M t u) : SameView T M s u := by
  refine ⟨?_, fun b hb => ?_⟩
  · rw [h'.1, h.1]
  · exact (h'.2 b fun ht => hb ((h.volatile b).mp ht)).trans (h.2 b hb)

/-- One interrupt is not noticed. -/
theorem Interrupted.sameView (hT : ∀ stub, Serves T stub) (hs : s.Loaded T)
    (hvm : s.eflags &&& virtualFlag = 0#32) (h : Interrupted T M s t) : SameView T M s t := by
  obtain ⟨-, hroom, line, env, hharmless, hrun⟩ := h
  have hcalled := called_registersSaved (T := T) (.irq line) none s
  have herr : (none : Option U32).isSome ↔ HasErrorCode (Stub.irq line).vector := by
    refine iff_of_false (by decide) ?_
    exact (by decide : ∀ n : Fin 16, ¬ HasErrorCode (Stub.irq n).vector) line
  rw [interrupt_eq (hT _) herr hvm] at hrun
  generalize registersSaved (inCommon T (.irq line) none s) = e at hcalled hrun
  have ha := hharmless e hcalled
  change run T env restoreRegisters (env .irqHandlerC e) = some t at hrun
  rw [hcalled.interrupt (hT _) hs hvm ha.keeps] at hrun
  obtain rfl := Option.some.inj hrun
  refine ⟨rfl, fun b hb => ?_⟩
  obtain ⟨hown, hstack⟩ := not_or.mp hb
  have hlen : s.saved.length ≤ 5 := by
    unfold Cpu.saved
    split <;> simp
  have hesp : (e.esp + 4#32).toNat ≤ (T.stackFor s).2.toNat := by
    rw [hcalled.esp]
    bv_omega
  have hchanges := hcalled.changes (by omega)
  calc (env .irqHandlerC e).memory b = e.memory b := ha.writes b hown (by omega)
    _ = s.memory b := hchanges b (by omega)

/-- A run with interrupts keeps the view of the run alone. -/
theorem InterruptedRun.sameView_runAlone {program : Cpu → Option Cpu} (hT : ∀ stub, Serves T stub)
    (hprogram : Independent T M program) {n : ℕ} (hs : s.Loaded T) (hvm : s.eflags &&& virtualFlag = 0#32)
    (h : InterruptedRun T M program n s t) :
    (t.Loaded T ∧ t.eflags &&& virtualFlag = 0#32) ∧
      ∃ t', runAlone program n s = some t' ∧ SameView T M t' t := by
  induction h with
  | refl => exact ⟨⟨hs, hvm⟩, _, rfl, .refl _⟩
  | step _ hstep ih =>
    obtain ⟨⟨hloaded, hvirtual⟩, u, hu, hview⟩ := ih hs hvm
    obtain ⟨u', hu', hview'⟩ := hprogram.view _ _ _ hview.symm hstep
    refine ⟨⟨hprogram.loaded _ _ hloaded hstep, hprogram.notVirtual _ _ hvirtual hstep⟩, u', ?_, hview'.symm⟩
    rw [runAlone, hu, Option.bind_some, hu']
  | interrupt _ hint ih =>
    obtain ⟨⟨hloaded, hvirtual⟩, u, hu, hview⟩ := ih hs hvm
    have hsame := hint.sameView hT hloaded hvirtual
    refine ⟨?_, u, hu, hview.trans hsame⟩
    have heq := hsame.1
    rw [heq]
    exact ⟨⟨hloaded.code, hloaded.stack, hloaded.data⟩, hvirtual⟩

end

/-- **Interrupts are invisible**: with the tables of the kernel, whenever and however often hardware
interrupts arrive, as long as their handlers return and keep to their own memory, a program that has executed
`n` instructions has the registers and the memory that it has after `n` instructions alone. -/
theorem interrupts_invisible (address : Stub → U32) (stackTop gTss : U32) (gdt : ℕ → GdtEntry)
    (M : HandlerMemory) (program : Cpu → Option Cpu)
    (hprogram : Independent (bootTables address stackTop gTss gdt) M program) (n : ℕ) (s t : Cpu)
    (hs : s.Loaded (bootTables address stackTop gTss gdt)) (hvm : s.eflags &&& virtualFlag = 0#32)
    (hrun : InterruptedRun (bootTables address stackTop gTss gdt) M program n s t) :
    ∃ t', runAlone program n s = some t' ∧ SameView (bootTables address stackTop gTss gdt) M t' t :=
  (hrun.sameView_runAlone (serves_bootTables address stackTop gTss gdt) hprogram hs hvm).2

/-- A program that counts in `eax`. -/
def counting (s : Cpu) : Option Cpu :=
  some { s with gpr := Function.update s.gpr .eax (s.gpr .eax + 1#32) }

/-- The counting program looks at no memory that a handler may write. -/
theorem counting_independent (T : Tables) (M : HandlerMemory) : Independent T M counting where
  view := by
    rintro s t s' ⟨heq, hmem⟩ hs
    obtain rfl := Option.some.inj hs
    refine ⟨_, rfl, ?_, hmem⟩
    rw [heq]
  loaded := by
    intro s s' hs h
    obtain rfl := Option.some.inj h
    exact ⟨hs.code, hs.stack, hs.data⟩
  notVirtual := by
    intro s s' hs h
    obtain rfl := Option.some.inj h
    exact hs

/-- The program is interrupted by the keyboard between its first two instructions. -/
theorem interrupts_invisible_counting :
    let T := bootTables (fun _ => 0#32) 0xC0110000#32 0#32 fun _ => ⟨0#16, 0#16, 0#8, 0#8, 0#8, 0#8⟩
    let M : HandlerMemory := ⟨fun _ => False, 0xC010C000⟩
    ∃ t t', InterruptedRun T M counting 2 atLevel3 t ∧ runAlone counting 2 atLevel3 = some t' ∧
      SameView T M t' t := by
  intro T M
  have hloaded : atLevel3.Loaded T := atLevel3_loaded ..
  obtain ⟨s, hs⟩ : ∃ s, counting atLevel3 = some s := ⟨_, rfl⟩
  have hflags : s.eflags = 0x202#32 := by
    obtain rfl := Option.some.inj hs
    rfl
  have hlevel : s.cpl = 3#2 := by
    obtain rfl := Option.some.inj hs
    decide
  -- the handler returns at once
  have hcalled := called_registersSaved (T := T) (.irq 1) none s
  have hint : Interrupted T M s
      { s with memory := (registersSaved (inCommon T (.irq 1) none s)).memory } := by
    refine ⟨by rw [hflags]; decide, ?_, 1, fun _ a => a,
      fun e _ => ⟨⟨⟨rfl, rfl, rfl, rfl⟩, fun _ _ => rfl⟩, fun _ _ _ => rfl⟩,
      (interrupt_eq (serves_bootTables ..) (by decide) (by rw [hflags]; decide)).trans
        (hcalled.interrupt (serves_bootTables ..) ((counting_independent T M).loaded _ _ hloaded hs)
          (by rw [hflags]; decide) ⟨⟨rfl, rfl, rfl, rfl⟩, fun _ _ => rfl⟩)⟩
    unfold Tables.stackFor
    rw [if_neg (by rw [hlevel]; decide)]
    change 0xC010C000 + 80 ≤ (0xC0110000#32 : U32).toNat
    decide
  have hrun := ((InterruptedRun.refl.step hs).interrupt hint).step (show counting _ = some _ from rfl)
  obtain ⟨t', ht', hview⟩ := interrupts_invisible _ _ _ _ M counting (counting_independent T M) _ _ _ hloaded
    (by decide) hrun
  exact ⟨_, t', hrun, ht', hview⟩

end Microkernel.Arch
