import Microkernel.Arch.Descriptors

/-! # Entry stubs

`isr_stubs.asm`, `irq_stubs.asm` and `tss_flush.asm`: the code between the processor and the handlers in C.
A stub ends in a jump to a common part, which is the rest of its list of instructions.

* **`Stub.prologue`** — what each stub pushes: the vector, and before it a zero where the processor pushes
  no error code, so that all of them leave one shape of frame.
* **`Stub.code`** — the prologue and the common part, as instructions of the processor in `Lib/X86`.
* **`Regs`** — the structure that the handler is given a pointer to: it is laid out by the order of the
  pushes and by nothing else.
-/

namespace Microkernel.Arch

open Function (update)
open X86

/-- The C functions that the stubs call. -/
inductive CFunction where
  | isrHandlerC
  | irqHandlerC
  deriving DecidableEq

/-! ### The code -/

/-- `isr_common_stub` and `irq_common_stub`, up to the call of their handler. -/
def saveRegisters : List (Instr CFunction) :=
  [.pushad,
    .pushSeg .ds, .pushSeg .es, .pushSeg .fs, .pushSeg .gs,
    .movImm .eax 0x10#16, .movSeg .ds .eax, .movSeg .es .eax, .movSeg .fs .eax, .movSeg .gs .eax,
    .pushEsp]

/-- What follows the call of the handler. -/
def restoreRegisters : List (Instr CFunction) :=
  [.addEsp 4#32,
    .popSeg .gs, .popSeg .fs, .popSeg .es, .popSeg .ds,
    .popad,
    .addEsp 8#32,
    .iret]

/-- `isr_common_stub`, `irq_common_stub`. -/
def commonStub (handler : CFunction) : List (Instr CFunction) :=
  saveRegisters ++ .call handler :: restoreRegisters

/-- `ISR_NOERR n`. -/
def isrNoerr (n : U32) : List (Instr CFunction) := [.pushImm 0#32, .pushImm n]

/-- `ISR_ERR n`. -/
def isrErr (n : U32) : List (Instr CFunction) := [.pushImm n]

/-- `IRQ line, vector`. -/
def irqStub (vector : U32) : List (Instr CFunction) := [.pushImm 0#32, .pushImm vector]

/-- The exceptions that are defined with `ISR_ERR`. -/
def isrErrVectors : List (Fin 32) := [8, 10, 11, 12, 13, 14, 17]

/-- What a stub does before it jumps to the common part. -/
def Stub.prologue : Stub → List (Instr CFunction)
  | .isr v => if v ∈ isrErrVectors then isrErr (BitVec.ofNat 32 v) else isrNoerr (BitVec.ofNat 32 v)
  | .irq n => irqStub (BitVec.ofNat 32 (0x20 + n))

/-- The handler of a stub's common part. -/
def Stub.handler : Stub → CFunction
  | .isr _ => .isrHandlerC
  | .irq _ => .irqHandlerC

/-- The stub. -/
def Stub.code (stub : Stub) : List (Instr CFunction) := stub.prologue ++ commonStub stub.handler

/-- `jump_to_ring3(eip, esp3)`. -/
def jumpToRing3 : List (Instr CFunction) :=
  [.movTop .eax 4#32, .movTop .ecx 8#32,
    .movImm .edx userDataSel, .movSeg .ds .edx, .movSeg .es .edx, .movSeg .fs .edx, .movSeg .gs .edx,
    .pushImm (userDataSel.setWidth 32),
    .pushReg .ecx,
    .pushfd, .orTop 0x200#32,
    .pushImm (userCodeSel.setWidth 32),
    .pushReg .eax,
    .iret]

/-- The vectors for which the processor pushes an error code. -/
def HasErrorCode (vector : U8) : Prop :=
  vector = 8#8 ∨ vector = 10#8 ∨ vector = 11#8 ∨ vector = 12#8 ∨ vector = 13#8 ∨ vector = 14#8 ∨ vector = 17#8

instance (vector : U8) : Decidable (HasErrorCode vector) := inferInstanceAs (Decidable (_ ∨ _))

/-! ### The registers that the handlers see -/

/-- `regs_t`; `irq_regs_t` ends with `eflags`. -/
structure Regs where
  gs : U32
  fs : U32
  es : U32
  ds : U32
  edi : U32
  esi : U32
  ebp : U32
  esp : U32
  ebx : U32
  edx : U32
  ecx : U32
  eax : U32
  intNo : U32
  errCode : U32
  eip : U32
  cs : U32
  eflags : U32
  userEsp : U32
  userSs : U32

/-- The structure at an address. -/
def Regs.load (memory : U32 → U8) (p : U32) : Regs where
  gs := load32 memory p
  fs := load32 memory (p + 4#32)
  es := load32 memory (p + 8#32)
  ds := load32 memory (p + 12#32)
  edi := load32 memory (p + 16#32)
  esi := load32 memory (p + 20#32)
  ebp := load32 memory (p + 24#32)
  esp := load32 memory (p + 28#32)
  ebx := load32 memory (p + 32#32)
  edx := load32 memory (p + 36#32)
  ecx := load32 memory (p + 40#32)
  eax := load32 memory (p + 44#32)
  intNo := load32 memory (p + 48#32)
  errCode := load32 memory (p + 52#32)
  eip := load32 memory (p + 56#32)
  cs := load32 memory (p + 60#32)
  eflags := load32 memory (p + 64#32)
  userEsp := load32 memory (p + 68#32)
  userSs := load32 memory (p + 72#32)

/-- The registers of a state, as a stub stores them on a stack with `esp` at the vector. -/
structure Regs.Of (r : Regs) (s : Cpu) (vector : U8) (err : Option U32) (esp : U32) : Prop where
  gs : r.gs = (s.seg .gs).setWidth 32
  fs : r.fs = (s.seg .fs).setWidth 32
  es : r.es = (s.seg .es).setWidth 32
  ds : r.ds = (s.seg .ds).setWidth 32
  edi : r.edi = s.gpr .edi
  esi : r.esi = s.gpr .esi
  ebp : r.ebp = s.gpr .ebp
  esp : r.esp = esp
  ebx : r.ebx = s.gpr .ebx
  edx : r.edx = s.gpr .edx
  ecx : r.ecx = s.gpr .ecx
  eax : r.eax = s.gpr .eax
  intNo : r.intNo = vector.setWidth 32
  errCode : r.errCode = err.getD 0#32
  eip : r.eip = s.eip
  cs : r.cs = s.cs.setWidth 32
  eflags : r.eflags = s.eflags
  user : s.cpl ≠ 0#2 → r.userEsp = s.esp ∧ r.userSs = s.ss.setWidth 32

end Microkernel.Arch
