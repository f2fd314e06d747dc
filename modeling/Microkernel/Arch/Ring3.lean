import Microkernel.Arch.InterruptedRuns

/-! # Level 3

`jump_to_ring3` builds the frame of an interrupt that never was, and `iret` takes it.

The selectors, the flags and the stack of that frame are all that the function decides; the rest is what
the processor does with them.

* **`run_jumpToRing3`** — the instructions of the function, run one by one, end at level 3 at the address
  and with the stack that were asked for, interrupts enabled.
* **`ring3_and_back`** — whatever exception or interrupt ends the next instruction of the user, its
  handler runs on the stack of the task state segment, with the registers of the user before it.
-/

namespace Microkernel.Arch

open Function (update)
open X86

section
variable {T : Tables} {env : CFunction → Cpu → Cpu}

/-- A word that is stored again. -/
theorem store32_store32 (memory : U32 → U8) (a v w : U32) :
    store32 (store32 memory a v) a w = store32 memory a w := by
  funext b
  unfold store32
  split <;> rfl

/-- The word that was stored. -/
theorem load32_store32 (memory : U32 → U8) (a v : U32) : load32 (store32 memory a v) a = v :=
  WordsAt.head (WordsAt.store (wordsAt_nil _ _) (by decide) v)

/-- `pushfd; or dword [esp], v`. -/
theorem run_pushfd_or (is : List (Instr CFunction)) (s : Cpu) (v : U32) :
    run T env (.pushfd :: .orTop v :: is) s = run T env is (s.push (s.eflags ||| v)) := by
  rw [run_cons (t := s.push s.eflags) rfl]
  refine run_cons (congrArg some ?_)
  have htop : (s.push s.eflags).top 0#32 = s.eflags := by
    unfold Cpu.top
    rw [BitVec.add_zero]
    exact load32_store32 ..
  rw [htop]
  exact congrArg (fun m => { s with esp := s.esp - 4#32, memory := m }) (store32_store32 ..)

/-- The state that `jump_to_ring3(eip, esp3)` leads to. -/
structure EntersUser (s : Cpu) (eip esp3 : U32) (u : Cpu) : Prop where
  eip : u.eip = eip
  esp : u.esp = esp3
  cs : u.cs = userCodeSel
  ss : u.ss = userDataSel
  seg : ∀ r, u.seg r = userDataSel
  eflags : u.eflags = s.eflags ||| interruptFlag
  memory : 20 ≤ s.esp.toNat → ChangesWithin (s.esp.toNat - 20) s.esp.toNat s.memory u.memory

/-- Setting the interrupt flag leaves the others. -/
theorem or_interruptFlag_and {x : U32} (h : x &&& virtualFlag = 0#32) :
    (x ||| interruptFlag) &&& virtualFlag = 0#32 := by
  rw [BitVec.and_or_distrib_right, h]
  decide

/-- **`jump_to_ring3` enters the user's code**: called at level 0 it leads to level 3, to the address and the
stack it was given, with the user's segments and with interrupts enabled. -/
theorem run_jumpToRing3 {T : Tables} (env : CFunction → Cpu → Cpu) {s : Cpu} {eip esp3 : U32}
    (hT : TakesCode T userCodeSel ∧ TakesStack T 3#2 userDataSel ∧ ∀ cpl, TakesData T cpl userDataSel)
    (hcpl : s.cpl = 0#2) (hnested : s.eflags &&& nestedFlag = 0#32) (hvm : s.eflags &&& virtualFlag = 0#32)
    (heip : s.top 4#32 = eip) (hesp3 : s.top 8#32 = esp3) :
    ∃ u, run T env jumpToRing3 s = some u ∧ EntersUser s eip esp3 u ∧ u.Loaded T := by
  obtain ⟨hcode, hstack, hdata⟩ := hT
  -- the arguments and the selector are in registers, and the data segments are the user's
  obtain ⟨g, hg⟩ : ∃ g, g = update (update (update s.gpr .eax eip) .ecx esp3) .edx
    ((update (update s.gpr .eax eip) .ecx esp3 .edx).extractLsb' 16 16 ++ userDataSel) := ⟨_, rfl⟩
  let b : Cpu := { s with gpr := g, seg := fun _ => userDataSel }
  let vs : List U32 := [userDataSel.setWidth 32, esp3, s.eflags ||| interruptFlag, userCodeSel.setWidth 32, eip]
  let c : Cpu := { b with
    eip := eip, esp := esp3, cs := userCodeSel, ss := userDataSel, eflags := s.eflags ||| interruptFlag }
  have hlevel : ¬ c.cpl = 0#2 := by
    change ¬ rpl userCodeSel = 0#2
    decide
  have hsaved : c.saved = vs := by
    unfold Cpu.saved
    rw [if_neg hlevel]
    rfl
  have hloaded : c.Loaded T := by
    refine ⟨hcode, ?_, fun _ => hdata _⟩
    change TakesStack T (rpl userCodeSel) userDataSel
    rwa [show rpl userCodeSel = 3#2 by decide]
  have hrun : run T env jumpToRing3 s = (b.pushes vs).iret T := by
    have hax : g .eax = eip := by rw [hg]; rfl
    have hcx : g .ecx = esp3 := by rw [hg]; rfl
    have hdx : (g .edx).setWidth 16 = userDataSel := by
      rw [hg, Function.update_self]
      exact BitVec.setWidth_append_eq_right
    unfold jumpToRing3
    rw [run_cons (t := { s with gpr := update s.gpr .eax eip }) (by rw [← heip]; rfl),
      run_cons (t := { s with gpr := update (update s.gpr .eax eip) .ecx esp3 }) (by rw [← hesp3]; rfl),
      run_cons (t := { s with gpr := g }) (by rw [hg]; rfl),
      run_movSegs (s := { s with gpr := g }) hdx (hdata _),
      run_cons (t := b.push (userDataSel.setWidth 32)) rfl,
      run_cons (t := b.pushes [userDataSel.setWidth 32, esp3]) (by rw [← hcx]; rfl),
      run_pushfd_or,
      run_cons (t := b.pushes [userDataSel.setWidth 32, esp3, s.eflags ||| interruptFlag,
        userCodeSel.setWidth 32]) rfl,
      run_cons (t := b.pushes vs) (by simp only [vs, ← hax]; rfl)]
    exact Option.bind_fun_some _
  have hwords : WordsAt (b.pushes vs).memory (b.pushes vs).esp (c.saved.reverse ++ []) := by
    rw [hsaved]
    exact wordsAt_pushes vs (wordsAt_nil _ _) (by simp [vs])
  have hkept := pushes_eq b vs
  rw [iret_saved (c := c) (by rw [hkept]; exact hcpl) (by rw [hkept]; exact hnested) hloaded
    (or_interruptFlag_and hvm) hwords (by rw [hkept]) fun h => absurd h hlevel] at hrun
  refine ⟨_, hrun, ⟨rfl, rfl, rfl, rfl, fun _ => rfl, rfl, fun hroom => ?_⟩, ⟨hloaded.code, hloaded.stack, hloaded.data⟩⟩
  exact changesWithin_pushes b vs hroom

end

section
variable (address : Stub → U32) (stackTop gTss : U32) (gdt : ℕ → GdtEntry)

/-- **To level 3 and back**: `jump_to_ring3(eip, esp3)` leads to the user's code at level 3 with interrupts
enabled, and whatever exception or interrupt ends its first instruction, the handler is called on the stack of
the task state segment and finds in `regs_t` the address, the stack and the selectors that the user's code was
entered with. -/
theorem ring3_and_back (s : Cpu) (eip esp3 : U32) (hcpl : s.cpl = 0#2)
    (hnested : s.eflags &&& nestedFlag = 0#32) (hvm : s.eflags &&& virtualFlag = 0#32)
    (heip : s.top 4#32 = eip) (hesp3 : s.top 8#32 = esp3) :
    let T := bootTables address stackTop gTss gdt
    ∃ u, (∀ env, run T env jumpToRing3 s = some u) ∧ EntersUser s eip esp3 u ∧ u.cpl = 3#2 ∧ u.Loaded T ∧
      ∀ stub err, (err.isSome ↔ HasErrorCode stub.vector) →
        ∃ e, (∀ env, interrupt T env stub err u = run T env restoreRegisters (env stub.handler e)) ∧
          e.esp = stackTop - 80#32 ∧
          let r := Regs.load e.memory (e.top 0#32)
          r.intNo = stub.vector.setWidth 32 ∧ r.errCode = err.getD 0#32 ∧ r.eip = eip ∧ r.cs = 0x1B#32 ∧
            r.eflags = s.eflags ||| interruptFlag ∧ r.userEsp = esp3 ∧ r.userSs = 0x23#32 := by
  intro T
  have huser := takes_user address stackTop gTss gdt
  obtain ⟨u, hu, henters, hloaded⟩ :=
    run_jumpToRing3 (fun _ a => a) huser hcpl hnested hvm heip hesp3
  have hlevel : u.cpl = 3#2 := by
    unfold Cpu.cpl
    rw [henters.cs]
    decide
  refine ⟨u, fun env => ?_, henters, hlevel, hloaded, fun stub err herr => ?_⟩
  · -- the code calls no function
    exact hu
  have hT : Serves T stub := serves_bootTables address stackTop gTss gdt stub
  have hcalled := called_registersSaved (T := T) stub err u
  have hne : u.cpl ≠ 0#2 := by
    rw [hlevel]
    decide
  have hregs := hcalled.regs
  refine ⟨_, fun env => interrupt_eq hT herr ?_, ?_, hregs.intNo, hregs.errCode, ?_, ?_, ?_, ?_, ?_⟩
  · rw [henters.eflags]
    exact or_interruptFlag_and hvm
  · have hstack : T.stackFor u = (kernelDataSel, stackTop) := by
      obtain ⟨hss, hesp⟩ := bootTables_stack address stackTop gTss gdt
      exact (if_neg hne).trans (Prod.ext hss hesp)
    have hsaved : u.saved.length = 5 := by simp [Cpu.saved, hne]
    rw [hcalled.esp, hstack, hsaved]
  · rw [hregs.eip, henters.eip]
  · rw [hregs.cs, henters.cs]
    rfl
  · rw [hregs.eflags, henters.eflags]
  · rw [(hregs.user hne).1, henters.esp]
  · rw [(hregs.user hne).2, henters.ss]
    rfl

end

/-- A call of `jump_to_ring3(0x00400000, 0x00402000)`. -/
def callsJumpToRing3 : Cpu :=
  { gpr := fun _ => 0#32, esp := 0xC0110000#32, seg := fun _ => kernelDataSel, cs := kernelCodeSel,
    ss := kernelDataSel, eip := 0xC0100000#32, eflags := 0x2#32
    memory := fun b =>
      (bytesOf32 0#32 ++ bytesOf32 0x00400000#32 ++ bytesOf32 0x00402000#32).getD (b - 0xC0110000#32).toNat 0#8 }

/-- The test of the shell: `hlt` at level 3 is the exception 13. -/
theorem ring3_and_back_panic :
    ∃ u e : Cpu, EntersUser callsJumpToRing3 0x00400000#32 0x00402000#32 u ∧
      (Regs.load e.memory (e.top 0#32)).intNo = 13#32 ∧
      (Regs.load e.memory (e.top 0#32)).userEsp = 0x00402000#32 := by
  have heip : callsJumpToRing3.top 4#32 = 0x00400000#32 := by decide
  have hesp3 : callsJumpToRing3.top 8#32 = 0x00402000#32 := by decide
  obtain ⟨u, -, henters, -, -, hback⟩ := ring3_and_back (fun _ => 0#32) 0xC0110000#32 0#32
    (fun _ => ⟨0#16, 0#16, 0#8, 0#8, 0#8, 0#8⟩) callsJumpToRing3 _ _ (by decide) (by decide) (by decide)
    heip hesp3
  obtain ⟨e, -, -, hno, -, -, -, -, hesp, -⟩ := hback (.isr 13) (some 0#32) (by decide)
  exact ⟨u, e, henters, hno, hesp⟩

end Microkernel.Arch
