import Microkernel.Arch.Stubs

/-! # Interrupts from end to end

The processor's delivery and the code of a stub, put together: what a handler in C finds, and what is left of
an interrupt once the stub has returned.

* **`Serves`** — what the tables must say for interrupts to arrive at level 0.
* **`interrupt_eq`** — an interrupt is delivered, its stub stores the registers, the handler is called,
  and the rest of the stub restores what it was given.
* **`interrupt_calls_handler`** — the handler is called once, with the vector, the error code and the
  registers of the interrupted code, at either level.
* **`KeepsFrame`, `interrupt_restores`** — a handler that leaves its frame alone is not noticed by that
  code.
-/

namespace Microkernel.Arch

open Function (update)
open X86

section
variable {T : Tables} {env : CFunction → Cpu → Cpu}

/-- An interrupt from end to end: the delivery, then the stub. -/
def interrupt (T : Tables) (env : CFunction → Cpu → Cpu) (stub : Stub) (err : Option U32) (s : Cpu) :
    Option Cpu :=
  (deliver T stub.vector err s).bind (run T env stub.code)

/-- The tables are such that interrupts reach the stubs: the gate of a stub's vector leads to level 0, the
data segment of the kernel can be loaded there, and level 0 has a stack. -/
structure Serves (T : Tables) (stub : Stub) : Prop where
  enters : T.Enters stub.vector
  kernelData : TakesData T 0#2 kernelDataSel
  kernelLevel : rpl ((T.gate stub.vector).selector &&& 0xFFFC#16) = 0#2

/-! ### Entry -/

/-- The general registers and the segment registers in the order in which they are pushed. -/
def pushedRegisters (s : Cpu) : List U32 :=
  [s.gpr .eax, s.gpr .ecx, s.gpr .edx, s.gpr .ebx, s.esp, s.gpr .ebp, s.gpr .esi, s.gpr .edi,
    (s.seg .ds).setWidth 32, (s.seg .es).setWidth 32, (s.seg .fs).setWidth 32, (s.seg .gs).setWidth 32]

/-- The registers are pushed. -/
theorem run_pushRegisters (is : List (Instr CFunction)) (s : Cpu) :
    run T env (.pushad :: .pushSeg .ds :: .pushSeg .es :: .pushSeg .fs :: .pushSeg .gs :: is) s =
      run T env is (s.pushes (pushedRegisters s)) := rfl

/-- The registers are saved, and the address of the lowest one is the argument. -/
def registersSaved (s : Cpu) : Cpu :=
  { s.pushes (pushedRegisters s ++ [(s.pushes (pushedRegisters s)).esp]) with
    gpr := update s.gpr .eax ((s.gpr .eax).extractLsb' 16 16 ++ kernelDataSel)
    seg := fun _ => kernelDataSel }

/-- Saving the registers moves the stack pointer by 13 words and loads the kernel's data segments. -/
theorem registersSaved_eq (s : Cpu) : registersSaved s =
    { s with
      gpr := (registersSaved s).gpr, esp := s.esp - 52#32, seg := fun _ => kernelDataSel
      memory := (registersSaved s).memory } := by
  unfold registersSaved
  rw [pushes_eq]
  rfl

/-- The instructions of the stub that save the registers run through when the data segment can be loaded. -/
theorem run_saveRegisters {s : Cpu} (hdata : TakesData T s.cpl kernelDataSel) :
    run T env saveRegisters s = some (registersSaved s) := by
  unfold saveRegisters registersSaved
  rw [run_pushRegisters, pushes_append]
  have hgpr : (s.pushes (pushedRegisters s)).gpr = s.gpr := by rw [pushes_eq]
  have hcs : (s.pushes (pushedRegisters s)).cs = s.cs := by rw [pushes_eq]
  generalize s.pushes (pushedRegisters s) = t at hgpr hcs
  rw [← hgpr]
  rw [run_cons (t := { t with gpr := update t.gpr .eax ((t.gpr .eax).extractLsb' 16 16 ++ kernelDataSel) }) rfl]
  -- `mov ax, 0x10` before the four segment registers
  have hax : (update t.gpr .eax ((t.gpr .eax).extractLsb' 16 16 ++ kernelDataSel) .eax).setWidth 16 =
      kernelDataSel := by
    rw [Function.update_self]
    exact BitVec.setWidth_append_eq_right
  rw [run_movSegs hax]
  · rfl
  · unfold Cpu.cpl at hdata ⊢
    rwa [hcs]

/-- With or without an error code from the processor, the error code and the vector are pushed. -/
theorem run_prologue {stub : Stub} {err : Option U32} (herr : err.isSome ↔ HasErrorCode stub.vector)
    (is : List (Instr CFunction)) (s : Cpu) :
    run T env (stub.prologue ++ is) (s.pushes err.toList) =
      run T env is (s.pushes [err.getD 0#32, stub.vector.setWidth 32]) := by
  have hisr : ∀ v : Fin 32, (v ∈ isrErrVectors ↔ HasErrorCode (Stub.isr v).vector) ∧
      (BitVec.ofNat 32 v : U32) = (Stub.isr v).vector.setWidth 32 := by decide
  have hirq : ∀ n : Fin 16, ¬ HasErrorCode (Stub.irq n).vector ∧
      (BitVec.ofNat 32 (0x20 + n) : U32) = (Stub.irq n).vector.setWidth 32 := by decide
  cases stub with
  | isr v =>
    obtain ⟨hmem, hv⟩ := hisr v
    unfold Stub.prologue
    by_cases h : v ∈ isrErrVectors
    · -- the processor has pushed the error code
      obtain ⟨e, rfl⟩ := Option.isSome_iff_exists.mp (herr.mpr (hmem.mp h))
      simp only [if_pos h, hv]
      rfl
    · obtain rfl : err = none := by
        -- the stub pushes a zero for it
        rw [← Option.not_isSome_iff_eq_none]
        exact fun hsome => h (hmem.mpr (herr.mp hsome))
      simp only [if_neg h, hv]
      rfl
  | irq n =>
    obtain ⟨hno, hv⟩ := hirq n
    obtain rfl : err = none := by
      rw [← Option.not_isSome_iff_eq_none]
      exact fun hsome => hno (herr.mp hsome)
    simp only [Stub.prologue, hv]
    rfl

/-- The words a handler finds from its argument on, lowest first: `regs_t`. -/
def regsWords (s : Cpu) (stub : Stub) (err : Option U32) (esp : U32) : List U32 :=
  [(s.seg .gs).setWidth 32, (s.seg .fs).setWidth 32, (s.seg .es).setWidth 32, (s.seg .ds).setWidth 32,
    s.gpr .edi, s.gpr .esi, s.gpr .ebp, esp, s.gpr .ebx, s.gpr .edx, s.gpr .ecx, s.gpr .eax,
    stub.vector.setWidth 32, err.getD 0#32] ++ s.saved.reverse

/-- The state in which the C function of a stub is called: its argument points behind itself, to the frame,
which is the part of the stack in use. -/
structure Called (T : Tables) (s : Cpu) (stub : Stub) (err : Option U32) (e : Cpu) : Prop where
  argument : e.top 0#32 = e.esp + 4#32
  frame : WordsAt e.memory (e.esp + 4#32) (regsWords s stub err (e.esp + 52#32))
  esp : e.esp = (T.stackFor s).2 - BitVec.ofNat 32 (4 * (s.saved.length + 15))
  cs : e.cs = (T.gate stub.vector).selector &&& 0xFFFC#16
  ss : e.ss = (T.stackFor s).1
  seg : ∀ r, e.seg r = kernelDataSel
  eflags : e.eflags = s.eflags &&& ~~~ gateCleared
  changes : 4 * (s.saved.length + 15) ≤ (T.stackFor s).2.toNat →
    ChangesWithin ((T.stackFor s).2.toNat - 4 * (s.saved.length + 15)) (T.stackFor s).2.toNat s.memory e.memory

/-- The state in which the common part of a stub begins. -/
def inCommon (T : Tables) (stub : Stub) (err : Option U32) (s : Cpu) : Cpu :=
  (T.entering stub.vector s).pushes (s.saved ++ [err.getD 0#32, stub.vector.setWidth 32])

/-- What the common stub finds: the frame of the processor, and below it the error code and the vector. -/
theorem inCommon_eq (stub : Stub) (err : Option U32) (s : Cpu) : inCommon T stub err s =
    { T.entering stub.vector s with
      esp := (T.stackFor s).2 - BitVec.ofNat 32 (4 * (s.saved.length + 2))
      memory := (inCommon T stub err s).memory } := by
  unfold inCommon
  nth_rewrite 1 [pushes_eq]
  rw [List.length_append]
  rfl

/-- **An interrupt is a call of its handler**, followed by the code that restores the registers. -/
theorem interrupt_eq {s : Cpu} {stub : Stub} (hT : Serves T stub) {err : Option U32}
    (herr : err.isSome ↔ HasErrorCode stub.vector) (hvm : s.eflags &&& virtualFlag = 0#32) :
    interrupt T env stub err s =
      run T env restoreRegisters (env stub.handler (registersSaved (inCommon T stub err s))) := by
  unfold interrupt
  rw [deliver_eq hT.enters err hvm, Option.bind_some, Stub.code, pushes_append, run_prologue herr,
    ← pushes_append, commonStub, run_append]
  change (run T env saveRegisters (inCommon T stub err s)).bind _ = _
  rw [run_saveRegisters, Option.bind_some, run_cons rfl]
  unfold Cpu.cpl
  rw [inCommon_eq]
  change TakesData T (rpl ((T.gate stub.vector).selector &&& 0xFFFC#16)) kernelDataSel
  rw [hT.kernelLevel]
  exact hT.kernelData

/-- **Every handler finds the registers of the interrupted code.** -/
theorem called_registersSaved (stub : Stub) (err : Option U32) (s : Cpu) :
    Called T s stub err (registersSaved (inCommon T stub err s)) := by
  have hsaved : s.saved.length ≤ 5 := by
    unfold Cpu.saved
    split <;> simp
  obtain ⟨t, ht⟩ : ∃ t, t = inCommon T stub err s := ⟨_, rfl⟩
  have hkept := inCommon_eq (T := T) stub err s
  rw [← ht] at hkept ⊢
  have hp : (t.pushes (pushedRegisters t)).esp = t.esp - 48#32 := by
    rw [pushes_eq]
    rfl
  have hesp : (registersSaved t).esp = t.esp - 52#32 := by rw [registersSaved_eq]
  -- everything that is on the stack, in the order in which it was pushed
  have hpushed : t.pushes (pushedRegisters t ++ [(t.pushes (pushedRegisters t)).esp]) =
      (T.entering stub.vector s).pushes (s.saved ++ [err.getD 0#32, stub.vector.setWidth 32] ++
        (pushedRegisters t ++ [t.esp - 48#32])) := by
    rw [pushes_append _ (s.saved ++ _), hp, ht]
    rfl
  have hwords : WordsAt (registersSaved t).memory (registersSaved t).esp
      ((t.esp - 48#32) :: regsWords s stub err t.esp) := by
    have hlist : (s.saved ++ [err.getD 0#32, stub.vector.setWidth 32] ++
        (pushedRegisters t ++ [t.esp - 48#32])).reverse ++ [] = (t.esp - 48#32) :: regsWords s stub err t.esp := by
      have hgpr : t.gpr = s.gpr := by rw [hkept]; rfl
      have hseg : t.seg = s.seg := by rw [hkept]; rfl
      simp [regsWords, pushedRegisters, hgpr, hseg]
    have h := wordsAt_pushes (s := T.entering stub.vector s) (s.saved ++
      [err.getD 0#32, stub.vector.setWidth 32] ++ (pushedRegisters t ++ [t.esp - 48#32]))
      (wordsAt_nil _ _) (by simp [pushedRegisters]; omega)
    rw [← hpushed, hlist] at h
    exact h
  have hargument : (registersSaved t).esp + 4#32 = t.esp - 48#32 := by
    rw [hesp]
    bv_omega
  refine ⟨?_, ?_, ?_, ?_, ?_, fun _ => rfl, ?_, fun hroom => ?_⟩
  · rw [hargument]
    exact hwords.load 0 rfl
  · rw [show (registersSaved t).esp + 52#32 = t.esp by rw [hesp]; bv_omega]
    exact hwords.tail
  · rw [hesp, hkept]
    dsimp only
    rw [show 4 * (s.saved.length + 15) = 4 * (s.saved.length + 2) + 52 by omega, BitVec.ofNat_add]
    bv_omega
  · rw [registersSaved_eq, hkept]
    rfl
  · rw [registersSaved_eq, hkept]
    rfl
  · rw [registersSaved_eq, hkept]
    rfl
  · have hlen : (s.saved ++ [err.getD 0#32, stub.vector.setWidth 32] ++
        (pushedRegisters t ++ [t.esp - 48#32])).length = s.saved.length + 15 := by
      simp [pushedRegisters]
    have hchanges := changesWithin_pushes (T.entering stub.vector s) (s.saved ++
      [err.getD 0#32, stub.vector.setWidth 32] ++ (pushedRegisters t ++ [t.esp - 48#32]))
    rw [← hpushed, hlen] at hchanges
    exact hchanges hroom

/-- The frame as `regs_t`. -/
theorem Called.regs {s e : Cpu} {stub : Stub} {err : Option U32} (h : Called T s stub err e) :
    (Regs.load e.memory (e.top 0#32)).Of s stub.vector err (e.esp + 52#32) := by
  rw [h.argument]
  have hw := h.frame
  constructor
  case user =>
    intro hcpl
    have huser : s.saved.reverse =
        [s.eip, s.cs.setWidth 32, s.eflags, s.esp, s.ss.setWidth 32] := by
      simp [Cpu.saved, hcpl]
    rw [regsWords, huser] at hw
    exact ⟨hw.load 17 rfl, hw.load 18 rfl⟩
  case gs => exact hw.head
  case fs => exact hw.load 1 rfl
  case es => exact hw.load 2 rfl
  case ds => exact hw.load 3 rfl
  case edi => exact hw.load 4 rfl
  case esi => exact hw.load 5 rfl
  case ebp => exact hw.load 6 rfl
  case esp => exact hw.load 7 rfl
  case ebx => exact hw.load 8 rfl
  case edx => exact hw.load 9 rfl
  case ecx => exact hw.load 10 rfl
  case eax => exact hw.load 11 rfl
  case intNo => exact hw.load 12 rfl
  case errCode => exact hw.load 13 rfl
  case eip => exact hw.load 14 (by simp [regsWords, Cpu.saved])
  case cs => exact hw.load 15 (by simp [regsWords, Cpu.saved])
  case eflags => exact hw.load 16 (by simp [regsWords, Cpu.saved])

/-! ### Return -/

/-- The registers are restored from the frame. -/
theorem run_restoreRegisters {a s : Cpu} (stub : Stub) (err : Option U32) (esp : U32) (hcpl : a.cpl = 0#2)
    (hnested : a.eflags &&& nestedFlag = 0#32) (hs : s.Loaded T) (hvm : s.eflags &&& virtualFlag = 0#32)
    (hframe : WordsAt a.memory (a.esp + 4#32) (regsWords s stub err esp))
    (hstack : s.cpl = 0#2 → a.ss = s.ss ∧ a.esp + 72#32 = s.esp) :
    run T env restoreRegisters a = some { s with memory := a.memory } := by
  -- level 0 may load what the interrupted code had loaded
  have htakes : ∀ r, TakesData T a.cpl (s.seg r) := by
    intro r
    rw [hcpl]
    exact (hs.data r).imp_right fun ⟨d, hd, hp, hm, hread, hlevel⟩ =>
      ⟨d, hd, hp, hm, hread, hlevel.imp_right fun h => ⟨BitVec.le_def.mpr (Nat.zero_le _), h.2⟩⟩
  have hsegs : WordsAt a.memory (a.esp + 4#32 + 16#32) _ := hframe.drop [_, _, _, _]
  have hgprs : WordsAt a.memory (a.esp + 4#32 + 16#32 + 32#32 + 8#32) s.saved.reverse := by
    have h := hsegs.drop [_, _, _, _, _, _, _, _, _, _]
    rwa [show a.esp + 4#32 + 16#32 + 32#32 + 8#32 = a.esp + 4#32 + 16#32 + 40#32 by bv_omega]
  unfold restoreRegisters
  rw [run_cons (t := { a with esp := a.esp + 4#32 }) rfl,
    run_popSegs (s := { a with esp := a.esp + 4#32 }) hframe htakes,
    run_popad (s := { a with esp := a.esp + 4#32 + 16#32, seg := s.seg }) hsegs,
    run_cons (t := { a with
      esp := a.esp + 4#32 + 16#32 + 32#32 + 8#32, seg := s.seg, gpr := s.gpr }) rfl]
  rw [← List.append_nil s.saved.reverse] at hgprs
  refine run_cons (iret_saved (c := s) hcpl hnested hs hvm hgprs rfl fun hlevel => ?_)
  -- without a change of level the stack is the one of the handler
  obtain ⟨hss, hesp⟩ := hstack hlevel
  refine ⟨hss, ?_⟩
  rw [← hesp]
  bv_omega

/-- What a handler that returns must have kept: the stack pointer and level of its caller, and `regs_t`, which
it is given as `const`. -/
structure KeepsFrame (s e a : Cpu) : Prop where
  stack : KeepsStack e a
  frame : ∀ b, (b - (e.esp + 4#32)).toNat < 4 * (s.saved.length + 14) → a.memory b = e.memory b

/-- **The interrupted code goes on as if nothing had happened**, but for what the handler wrote. -/
theorem Called.interrupt {s e : Cpu} {stub : Stub} {err : Option U32} (hT : Serves T stub) (hs : s.Loaded T)
    (hvm : s.eflags &&& virtualFlag = 0#32) (h : Called T s stub err e)
    {a : Cpu} (ha : KeepsFrame s e a) : run T env restoreRegisters a = some { s with memory := a.memory } := by
  have hlen : (regsWords s stub err (e.esp + 52#32)).length = s.saved.length + 14 := by
    simp [regsWords]
  refine run_restoreRegisters stub err (e.esp + 52#32) ?_ ?_ hs hvm ?_ fun hlevel => ?_
  · unfold Cpu.cpl
    rw [ha.stack.cs, h.cs]
    exact hT.kernelLevel
  · rw [ha.stack.nested, h.eflags, BitVec.and_assoc]
    exact BitVec.and_zero
  · rw [ha.stack.esp]
    exact h.frame.congr fun b hb => ha.frame b (by rwa [hlen] at hb)
  · -- the same stack, three words deeper
    have hfor : T.stackFor s = (s.ss, s.esp) := if_pos hlevel
    have hsaved : s.saved.length = 3 := by simp [Cpu.saved, hlevel]
    rw [ha.stack.ss, h.ss, ha.stack.esp, h.esp, hfor, hsaved]
    exact ⟨rfl, by bv_omega⟩

end

/-! ### The tables of the kernel -/

section
variable (address : Stub → U32) (stackTop gTss : U32) (gdt : ℕ → GdtEntry)

/-- An entry from level 0 takes the kernel's data segment for its stack. -/
theorem takesStack_kernel : TakesStack (bootTables address stackTop gTss gdt) 0#2 kernelDataSel :=
  ⟨by decide, rfl, _, (bootTables_selector address stackTop gTss gdt).2.1, rfl, rfl, by decide, rfl, rfl⟩

/-- Every stub is reached. -/
theorem serves_bootTables (stub : Stub) : Serves (bootTables address stackTop gTss gdt) stub := by
  have hgate := (bootTables_gate address stackTop gTss gdt stub.vector).trans (idtInit_stub address stub)
  refine ⟨⟨?_, ?_, ?_, ?_⟩, ?_, ?_⟩
  · rw [hgate]
  · rw [hgate]
  · rw [hgate]
    exact ⟨_, (bootTables_selector address stackTop gTss gdt).1, rfl, rfl, rfl, by decide, rfl⟩
  · rw [(bootTables_stack address stackTop gTss gdt).1]
    exact takesStack_kernel address stackTop gTss gdt
  · exact .inr ⟨_, (bootTables_selector address stackTop gTss gdt).2.1, rfl, rfl, by decide, .inr ⟨by decide, by decide⟩⟩
  · rw [hgate]
    exact (by decide : rpl (kernelCodeSel &&& 0xFFFC#16) = 0#2)

/-- **Every exception and every hardware interrupt calls its handler once**, whatever the handler does: at
level 0, with interrupts disabled and the data segments of the kernel, on the stack that the task state
segment names if the code ran at an outer level and on its own stack otherwise. The argument points to
`regs_t`, which holds the registers of the interrupted code, the vector and the error code. Nothing but the
stack has changed. -/
theorem interrupt_calls_handler (stub : Stub) (err : Option U32) (s : Cpu)
    (herr : err.isSome ↔ HasErrorCode stub.vector) (hvm : s.eflags &&& virtualFlag = 0#32) :
    let T := bootTables address stackTop gTss gdt
    let top := if s.cpl = 0#2 then s.esp else stackTop
    let size := if s.cpl = 0#2 then 72 else 80
    ∃ e : Cpu,
      (∀ env, interrupt T env stub err s = run T env restoreRegisters (env stub.handler e)) ∧
      e.cpl = 0#2 ∧ e.eflags &&& interruptFlag = 0#32 ∧ (∀ r, e.seg r = kernelDataSel) ∧
      e.esp = top - BitVec.ofNat 32 size ∧ e.top 0#32 = e.esp + 4#32 ∧
      (Regs.load e.memory (e.top 0#32)).Of s stub.vector err (e.esp + 52#32) ∧
      (size ≤ top.toNat → ChangesWithin (top.toNat - size) top.toNat s.memory e.memory) := by
  intro T top size
  have hT : Serves T stub := serves_bootTables address stackTop gTss gdt stub
  have hcalled := called_registersSaved (T := T) stub err s
  have htop : (T.stackFor s).2 = top := by
    unfold Tables.stackFor
    rw [(bootTables_stack address stackTop gTss gdt).2]
    split
    · exact (if_pos ‹_›).symm
    · exact (if_neg ‹_›).symm
  have hsize : 4 * (s.saved.length + 15) = size := by
    unfold Cpu.saved
    split
    · exact (if_pos ‹_›).symm
    · exact (if_neg ‹_›).symm
  refine ⟨_, fun env => interrupt_eq hT herr hvm, ?_, ?_, hcalled.seg, ?_, hcalled.argument, hcalled.regs, ?_⟩
  · unfold Cpu.cpl
    rw [hcalled.cs]
    exact hT.kernelLevel
  · rw [hcalled.eflags, BitVec.and_assoc]
    exact BitVec.and_zero
  · rw [hcalled.esp, htop, hsize]
  · have hchanges := hcalled.changes
    rwa [htop, hsize] at hchanges

end

/-- A program at level 3. -/
def atLevel3 : Cpu :=
  { gpr := fun _ => 0#32, esp := 0x00402000#32, seg := fun _ => userDataSel, cs := userCodeSel,
    ss := userDataSel, eip := 0x00400000#32, eflags := 0x202#32, memory := fun _ => 0#8 }

/-- A page fault of the program. -/
theorem interrupt_calls_handler_pageFault : ∃ e : Cpu, e.cpl = 0#2 ∧
    (Regs.load e.memory (e.top 0#32)).intNo = 14#32 ∧ (Regs.load e.memory (e.top 0#32)).errCode = 4#32 := by
  obtain ⟨e, -, hcpl, -, -, -, -, hregs, -⟩ := interrupt_calls_handler (fun _ => 0#32) 0xC0110000#32 0#32
    (fun _ => ⟨0#16, 0#16, 0#8, 0#8, 0#8, 0#8⟩) (.isr 14) (some 4#32) atLevel3 (by decide) (by decide)
  exact ⟨e, hcpl, hregs.intNo, hregs.errCode⟩

section
variable (address : Stub → U32) (stackTop gTss : U32) (gdt : ℕ → GdtEntry)

/-- The selectors of the user can be loaded at level 3. -/
theorem takes_user :
    let T := bootTables address stackTop gTss gdt
    TakesCode T userCodeSel ∧ TakesStack T 3#2 userDataSel ∧
      ∀ cpl, TakesData T cpl userDataSel := by
  intro T
  obtain ⟨-, -, hcode, hdata⟩ := bootTables_selector address stackTop gTss gdt
  refine ⟨⟨by decide, _, hcode, rfl, rfl, rfl, rfl⟩, ⟨by decide, rfl, _, hdata, rfl, rfl, by decide, rfl, rfl⟩,
    fun cpl => .inr ⟨_, hdata, rfl, rfl, by decide, .inr ⟨?_, by decide⟩⟩⟩
  exact (by decide : ∀ x : BitVec 2, x ≤ 3#2) cpl

/-- The user state of the sample has the segments of the boot tables. -/
theorem atLevel3_loaded : atLevel3.Loaded (bootTables address stackTop gTss gdt) := by
  obtain ⟨hcode, hstack, hdata⟩ := takes_user address stackTop gTss gdt
  refine ⟨hcode, ?_, fun _ => hdata _⟩
  change TakesStack _ (rpl userCodeSel) userDataSel
  rwa [show rpl userCodeSel = 3#2 by decide]

/-- **An interrupt is invisible to the code it interrupts**: if its handler keeps the stack pointer and the
frame, the code goes on with all its registers, at its own level and on its own stack, and memory is what the
handler left. -/
theorem interrupt_restores (stub : Stub) (err : Option U32) (s : Cpu)
    (herr : err.isSome ↔ HasErrorCode stub.vector) (hvm : s.eflags &&& virtualFlag = 0#32)
    (hs : s.Loaded (bootTables address stackTop gTss gdt)) :
    let T := bootTables address stackTop gTss gdt
    ∃ e, Called T s stub err e ∧ ∀ env : CFunction → Cpu → Cpu, KeepsFrame s e (env stub.handler e) →
      interrupt T env stub err s = some { s with memory := (env stub.handler e).memory } := by
  intro T
  have hT : Serves T stub := serves_bootTables address stackTop gTss gdt stub
  have hcalled := called_registersSaved (T := T) stub err s
  exact ⟨_, hcalled, fun env henv => (interrupt_eq hT herr hvm).trans (hcalled.interrupt hT hs hvm henv)⟩

end

/-- The keyboard interrupts the program, and its handler does nothing. -/
theorem interrupt_restores_keyboard :
    let T := bootTables (fun _ => 0#32) 0xC0110000#32 0#32 fun _ => ⟨0#16, 0#16, 0#8, 0#8, 0#8, 0#8⟩
    ∃ e : Cpu, interrupt T (fun _ a => a) (.irq 1) none atLevel3 = some { atLevel3 with memory := e.memory } := by
  intro T
  obtain ⟨e, -, he⟩ := interrupt_restores (fun _ => 0#32) 0xC0110000#32 0#32
    (fun _ => ⟨0#16, 0#16, 0#8, 0#8, 0#8, 0#8⟩) (.irq 1) none atLevel3 (by decide) (by decide)
    (atLevel3_loaded ..)
  exact ⟨e, he (fun _ a => a) ⟨⟨rfl, rfl, rfl, rfl⟩, fun _ _ => rfl⟩⟩

end Microkernel.Arch
