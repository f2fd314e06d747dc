import Microkernel.Arch.Descriptors
import Microkernel.Lib.I8259
import Microkernel.Lib.Machine

/-! # Device interrupts

`pic.c` and `irq.c`: the two interrupt controllers behind their ports, and the handlers of the sixteen lines.
Devices raise their lines, the processor acknowledges one request at a time, and drivers install handlers and
mask lines at any moment.

* **`IrqState`** — the two controllers of the library `Lib/I8259`, `g_irq_handlers`, and whose handler
  runs.
* **`picInit`, `picSetMask`, `picClearMask`, `picSendEoi`** — the functions of `pic.c`, as the bytes that
  they write to the ports.
* **`IrqEvent`, `IrqState.step`** — what may happen next, in any order, and what it does. An acknowledgement may
  find that its request has been taken back: the controller then answers with line 7, and no handler of a
  driver must run for it.
-/

namespace Microkernel.Arch

open Function (update)
open I8259

/-! ### The ports -/

/-- `outb(port, value)`. No other port belongs to the controllers. -/
def outb (port : BitVec 16) (value : U8) (p : Pair) : Pair :=
  if port = 0x20#16 then { p with master := p.master.writeCommand value }
  else if port = 0x21#16 then { p with master := p.master.writeData value }
  else if port = 0xA0#16 then { p with slave := p.slave.writeCommand value }
  else if port = 0xA1#16 then { p with slave := p.slave.writeData value }
  else p

/-- `inb(port)` of one of the two data ports, the only ones that are read. -/
def inb (port : BitVec 16) (p : Pair) : U8 := if port = 0x21#16 then p.master.imr else p.slave.imr

/-- `io_wait()`. -/
def ioWait (p : Pair) : Pair := outb 0x80#16 0#8 p

/-! ### `pic.c` -/

/-- The data port for a line. -/
def picDataPort (irq : U8) : BitVec 16 := if irq < 8#8 then 0x21#16 else 0xA1#16

/-- `1u << line`, as a byte. -/
def picLine (irq : U8) : U8 := (1#32 <<< (irq &&& 7#8).toNat).setWidth 8

/-- `pic_set_mask(irq)`. -/
def picSetMask (irq : U8) (p : Pair) : Pair :=
  let port := picDataPort irq
  let mask := inb port p ||| picLine irq
  outb port mask p

/-- `pic_clear_mask(irq)`. -/
def picClearMask (irq : U8) (p : Pair) : Pair :=
  let port := picDataPort irq
  let mask := inb port p &&& ~~~ picLine irq
  outb port mask p

/-- `pic_send_eoi(irq)`. -/
def picSendEoi (irq : U8) (p : Pair) : Pair :=
  let p := if 8#8 ≤ irq then outb 0xA0#16 0x20#8 p else p
  -- the first controller in any case: the second is on its line 2
  outb 0x20#16 0x20#8 p

/-- `pic_init()`. -/
def picInit (p : Pair) : Pair :=
  -- ICW1: initialisation, with an ICW4
  let p := ioWait (outb 0x20#16 0x11#8 p)
  let p := ioWait (outb 0xA0#16 0x11#8 p)
  -- ICW2: the vectors
  let p := ioWait (outb 0x21#16 0x20#8 p)
  let p := ioWait (outb 0xA1#16 0x28#8 p)
  -- ICW3: the second controller is on line 2
  let p := ioWait (outb 0x21#16 0x04#8 p)
  let p := ioWait (outb 0xA1#16 0x02#8 p)
  -- ICW4: 8086 mode
  let p := ioWait (outb 0x21#16 0x01#8 p)
  let p := ioWait (outb 0xA1#16 0x01#8 p)
  -- all lines are masked
  let p := outb 0x21#16 0xFF#8 p
  outb 0xA1#16 0xFF#8 p

/-! ### `irq.c` -/

section
variable {H : Type*}

/-- `irq_install_handler(irq, handler)`, where `none` is the null pointer. -/
def irqInstallHandler (irq : U8) (handler : Option H) (handlers : ℕ → Option H) : ℕ → Option H :=
  if 16#8 ≤ irq then handlers else update handlers irq.toNat handler

/-- What `irq_handler_c` does: a message about the vector, or the call of a handler, if there is one, and then
the end of the interrupt. -/
inductive IrqCall (H : Type*) where
  | unexpected (vector : U32)
  | serve (irq : U8) (handler : Option H)

/-- `irq_handler_c(r)`, from `r->int_no`. -/
def irqHandlerC (handlers : ℕ → Option H) (intNo : U32) : IrqCall H :=
  if intNo < 0x20#32 ∨ 0x2F#32 < intNo then .unexpected intNo
  else
    let irq := (intNo - 0x20#32).setWidth 8
    .serve irq (if irq < 16#8 then handlers irq.toNat else none)

/-! ### The lines -/

/-- A line with a device: all but the one on which the second controller is. -/
abbrev DeviceLine := {n : Fin 16 // n ≠ 2}

/-- What happens next. The processor acknowledges a request, perhaps one that has been taken back, only while
no handler runs, since the gates disable interrupts. -/
inductive IrqEvent (H : Type*) where
  | raise (line : DeviceLine)
  | lower (line : DeviceLine)
  | setMask (irq : U8)
  | clearMask (irq : U8)
  | install (irq : U8) (handler : Option H)
  | interrupt (glitch : Bool)
  | handlerReturns

/-- What is seen of an event: nothing, the call of the handler of a line, or a vector that is no line's. -/
inductive IrqAnswer (H : Type*) where
  | quiet
  | served (line : ℕ) (handler : Option H)
  | lost
  deriving DecidableEq

/-- The controllers, the handlers `g_irq_handlers`, and the line whose handler runs. -/
structure IrqState (H : Type*) where
  pair : Pair
  handlers : ℕ → Option H
  serving : Option U8

/-- A request is acknowledged: its vector leads to a stub, and that of a line calls `irq_handler_c` with the
vector. -/
def IrqState.interrupt (glitch : Bool) (s : IrqState H) : IrqState H × IrqAnswer H :=
  let (pair, vector) := s.pair.acknowledge glitch
  let s := { s with pair := pair }
  match vector with
  | none => (s, .lost)
  | some v =>
    match installed.find? fun stub => stub.vector = v with
    | some (.irq _) =>
      match irqHandlerC s.handlers (v.setWidth 32) with
      | .unexpected _ => (s, .lost)
      | .serve irq handler => ({ s with serving := some irq }, .served irq.toNat handler)
    | _ => (s, .lost)

/-- What a device does to its controller. -/
def onLine (line : DeviceLine) (f : ℕ → Chip → Chip) (p : Pair) : Pair :=
  if line.1.1 < 8 then { p with master := f line.1.1 p.master }
  else { p with slave := f (line.1.1 - 8) p.slave }

/-- The next event. -/
def IrqState.step (s : IrqState H) : IrqEvent H → IrqState H × IrqAnswer H
  | .raise line => ({ s with pair := onLine line Chip.raise s.pair }, .quiet)
  | .lower line => ({ s with pair := onLine line Chip.lower s.pair }, .quiet)
  | .setMask irq => ({ s with pair := picSetMask irq s.pair }, .quiet)
  | .clearMask irq => ({ s with pair := picClearMask irq s.pair }, .quiet)
  | .install irq handler => ({ s with handlers := irqInstallHandler irq handler s.handlers }, .quiet)
  | .interrupt glitch => if s.serving.isSome then (s, .quiet) else s.interrupt glitch
  | .handlerReturns =>
    match s.serving with
    | none => (s, .quiet)
    | some irq => ({ s with pair := picSendEoi irq s.pair, serving := none }, .quiet)

/-- The system from `pic_init` on. -/
def irqMachine (p : Pair) : Machine (IrqState H) (IrqEvent H) (IrqAnswer H) where
  init := ⟨picInit p, fun _ => none, none⟩
  step s e := some (s.step e)

end

end Microkernel.Arch
