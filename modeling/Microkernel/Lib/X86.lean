import Microkernel.Lib.ByteMemory
import Mathlib.Logic.Function.Basic

/-! # Interrupts of a 32-bit x86 processor

The part of the processor that entry and exit code of interrupts meets: general and segment registers, a
stack in byte memory, the checks of a segment load, the delivery of an interrupt through a gate and `iret`.
Segments are flat, so that an offset is a linear address. What is not modelled (virtual-8086 mode, task
switches, gates of other kinds) has no next state, as has a fault.

* **`Tables`** — the segment descriptors, the gates and the stack of level 0, as the processor reads them
  (`Segment.ofDescriptor`, `Gate.ofDescriptor`).
* **`deliver`, `iret`** — an interrupt and the return from it, at either level.
* **`Instr`, `run`** — a list of the instructions that occur, where a call runs a function that is a
  parameter.
* **`iret_saved`** — what was delivered is what is returned to.
-/

namespace Microkernel.X86

open Function (update)

/-! ### The machine -/

/-- The general registers; the stack pointer is a field of its own. -/
inductive Gpr where
  | eax | ecx | edx | ebx | ebp | esi | edi
  deriving DecidableEq

/-- The data segment registers. -/
inductive DataSeg where
  | ds | es | fs | gs
  deriving DecidableEq

/-- Registers and memory. -/
@[ext] structure Cpu where
  gpr : Gpr → BitVec 32
  esp : BitVec 32
  seg : DataSeg → BitVec 16
  cs : BitVec 16
  ss : BitVec 16
  eip : BitVec 32
  eflags : BitVec 32
  memory : BitVec 32 → BitVec 8

/-- What a segment descriptor says about the segment. The accessed bit is left out: the processor sets it
itself when it loads the segment. -/
structure Segment where
  base : BitVec 32
  limit : BitVec 20
  present : Bool
  dpl : BitVec 2
  /-- The segment holds code or data; it is not one of the system's. -/
  memory : Bool
  executable : Bool
  /-- For code: conforming; for data: expand-down. -/
  conforming : Bool
  /-- For code: readable; for data: writable. -/
  accessible : Bool
  /-- The four flags beside the limit: granularity, operand size, long mode, available. -/
  flags : BitVec 4
  deriving DecidableEq

/-- What a gate of the interrupt table says. -/
structure Gate where
  offset : BitVec 32
  selector : BitVec 16
  present : Bool
  dpl : BitVec 2
  kind : BitVec 5
  deriving DecidableEq

/-- The tables the processor consults. -/
structure Tables where
  segment : BitVec 16 → Option Segment
  gate : BitVec 8 → Gate
  ss0 : BitVec 16
  esp0 : BitVec 32

/-- A segment descriptor as the processor reads it. -/
def Segment.ofDescriptor (d : BitVec 64) : Segment where
  base := d.extractLsb' 56 8 ++ d.extractLsb' 16 24
  limit := d.extractLsb' 48 4 ++ d.extractLsb' 0 16
  present := d.getLsbD 47
  dpl := d.extractLsb' 45 2
  memory := d.getLsbD 44
  executable := d.getLsbD 43
  conforming := d.getLsbD 42
  accessible := d.getLsbD 41
  flags := d.extractLsb' 52 4

/-- A gate as the processor reads it. -/
def Gate.ofDescriptor (d : BitVec 64) : Gate where
  offset := d.extractLsb' 48 16 ++ d.extractLsb' 0 16
  selector := d.extractLsb' 16 16
  present := d.getLsbD 47
  dpl := d.extractLsb' 45 2
  kind := d.extractLsb' 40 5

/-- The descriptor a selector names, in a table with a limit; there is no local table. -/
def lookupSegment (limit : BitVec 16) (descriptor : ℕ → BitVec 64) (selector : BitVec 16) : Option Segment :=
  let index := (selector.extractLsb' 3 13).toNat
  if selector.getLsbD 2 ∨ index = 0 ∨ limit.toNat < 8 * index + 7 then none
  else some (.ofDescriptor (descriptor index))

/-- The type of a task state segment that is available: a system segment whose type ends in `001`. -/
def IsAvailableTask (d : BitVec 64) : Prop := d.getLsbD 44 = false ∧ d.extractLsb' 40 3 = 0x1#3

instance (d : BitVec 64) : Decidable (IsAvailableTask d) := inferInstanceAs (Decidable (_ ∧ _))

/-- The descriptor with its task marked busy. -/
def markBusy (d : BitVec 64) : BitVec 64 := d ||| 0x20000000000#64

/-- `ltr`: what the task register takes. It must be a task state segment that is present and available. -/
def takeTask (limit : BitVec 16) (descriptor : ℕ → BitVec 64) (selector : BitVec 16) : Option Segment :=
  (lookupSegment limit descriptor selector).filter fun d =>
    d.present && decide (IsAvailableTask (descriptor (selector.extractLsb' 3 13).toNat))

/-- The privilege level a selector asks for. -/
def rpl (selector : BitVec 16) : BitVec 2 := selector.extractLsb' 0 2

/-- The null selectors. -/
def IsNull (selector : BitVec 16) : Prop := selector.extractLsb' 2 14 = 0#14

instance (selector : BitVec 16) : Decidable (IsNull selector) := inferInstanceAs (Decidable (_ = _))

/-- The current privilege level. -/
def Cpu.cpl (s : Cpu) : BitVec 2 := rpl s.cs

/-- `IF`. -/
def interruptFlag : BitVec 32 := 0x200#32

/-- `NT`. -/
def nestedFlag : BitVec 32 := 0x4000#32

/-- `VM`. -/
def virtualFlag : BitVec 32 := 0x20000#32

/-- The flags that an interrupt gate clears: `IF`, `TF`, `NT`, `RF` and `VM`. -/
def gateCleared : BitVec 32 := 0x34300#32

/-! ### Segment loads -/

section
variable (T : Tables)

/-- A data segment register takes the selector at a privilege level. -/
def TakesData (cpl : BitVec 2) (selector : BitVec 16) : Prop :=
  IsNull selector ∨ ∃ d ∈ T.segment selector, d.present ∧ d.memory ∧ (d.executable → d.accessible) ∧
    (d.executable ∧ d.conforming ∨ cpl ≤ d.dpl ∧ rpl selector ≤ d.dpl)

/-- The stack segment register takes the selector at a privilege level. -/
def TakesStack (cpl : BitVec 2) (selector : BitVec 16) : Prop :=
  ¬ IsNull selector ∧ rpl selector = cpl ∧
    ∃ d ∈ T.segment selector, d.present ∧ d.memory ∧ ¬ d.executable ∧ d.accessible ∧ d.dpl = cpl

/-- The code segment register takes the selector, which gives the privilege level. -/
def TakesCode (selector : BitVec 16) : Prop :=
  ¬ IsNull selector ∧ ∃ d ∈ T.segment selector, d.present ∧ d.memory ∧ d.executable ∧
    if d.conforming then d.dpl ≤ rpl selector else d.dpl = rpl selector

instance (cpl : BitVec 2) (selector : BitVec 16) : Decidable (TakesData T cpl selector) :=
  inferInstanceAs (Decidable (_ ∨ _))

instance (cpl : BitVec 2) (selector : BitVec 16) : Decidable (TakesStack T cpl selector) :=
  inferInstanceAs (Decidable (_ ∧ _))

instance (selector : BitVec 16) : Decidable (TakesCode T selector) :=
  inferInstanceAs (Decidable (_ ∧ _))

/-- What a return to an outer level leaves in a data segment register: a segment that the level may not
use is replaced by the null selector. -/
def keptData (cpl : BitVec 2) (selector : BitVec 16) : BitVec 16 :=
  match T.segment selector with
  | none => selector
  | some d => if IsNull selector ∨ d.executable ∧ d.conforming ∨ cpl ≤ d.dpl then selector else 0#16

/-- The segment registers hold what they took at the privilege level of the code that runs. -/
structure Cpu.Loaded (s : Cpu) : Prop where
  code : TakesCode T s.cs
  stack : TakesStack T s.cpl s.ss
  data : ∀ r, TakesData T s.cpl (s.seg r)

end

/-! ### Instructions -/

/-- A memory after a 32-bit store. -/
def store32 (memory : BitVec 32 → BitVec 8) (a v : BitVec 32) : BitVec 32 → BitVec 8 :=
  fun b => if (b - a).toNat < 4 then (bytesOf32 v).getD (b - a).toNat 0#8 else memory b

/-- `push v`. -/
def Cpu.push (s : Cpu) (v : BitVec 32) : Cpu :=
  { s with esp := s.esp - 4#32, memory := store32 s.memory (s.esp - 4#32) v }

/-- The words are pushed in order. -/
def Cpu.pushes (s : Cpu) (vs : List (BitVec 32)) : Cpu := vs.foldl Cpu.push s

/-- The word at an offset from the top of the stack. -/
def Cpu.top (s : Cpu) (offset : BitVec 32) : BitVec 32 := load32 s.memory (s.esp + offset)

/-- The instructions that entry and exit code is made of. `call` runs a function of `F` and returns: the
return address is part of what the function may write below the stack pointer. -/
inductive Instr (F : Type*) where
  /-- `push imm32` -/
  | pushImm (v : BitVec 32)
  /-- `push r32` -/
  | pushReg (r : Gpr)
  /-- `push esp` -/
  | pushEsp
  /-- `push sreg` -/
  | pushSeg (r : DataSeg)
  /-- `pushfd` -/
  | pushfd
  /-- `pushad` -/
  | pushad
  /-- `mov r16, imm16` -/
  | movImm (r : Gpr) (v : BitVec 16)
  /-- `mov sreg, r16` -/
  | movSeg (d : DataSeg) (r : Gpr)
  /-- `mov r32, [esp + offset]` -/
  | movTop (r : Gpr) (offset : BitVec 32)
  /-- `or dword [esp], imm32` -/
  | orTop (v : BitVec 32)
  /-- `call f` -/
  | call (f : F)
  /-- `add esp, imm32` -/
  | addEsp (v : BitVec 32)
  /-- `pop sreg` -/
  | popSeg (r : DataSeg)
  /-- `popad` -/
  | popad
  /-- `iret` -/
  | iret

/-- `iret` at level 0, where it loads all flags. -/
def Cpu.iret (T : Tables) (s : Cpu) : Option Cpu :=
  let eip := s.top 0#32
  let cs := (s.top 4#32).setWidth 16
  let eflags := s.top 8#32
  if s.cpl ≠ 0#2 ∨ s.eflags &&& nestedFlag ≠ 0#32 ∨ eflags &&& virtualFlag ≠ 0#32 ∨ ¬ TakesCode T cs then
    none
  else if rpl cs = 0#2 then
    some { s with esp := s.esp + 12#32, cs := cs, eip := eip, eflags := eflags }
  else
    -- a return to an outer level also takes the stack of that level
    let ss := (s.top 16#32).setWidth 16
    if TakesStack T (rpl cs) ss then
      some { s with
        esp := s.top 12#32, ss := ss, cs := cs, eip := eip, eflags := eflags,
        seg := fun r => keptData T (rpl cs) (s.seg r) }
    else none

/-- One instruction, where `env` says what the functions do. -/
def Instr.step {F : Type*} (T : Tables) (env : F → Cpu → Cpu) : Instr F → Cpu → Option Cpu
  | .pushImm v, s => some (s.push v)
  | .pushReg r, s => some (s.push (s.gpr r))
  | .pushEsp, s => some (s.push s.esp)
  | .pushSeg r, s => some (s.push ((s.seg r).setWidth 32))
  | .pushfd, s => some (s.push s.eflags)
  | .pushad, s => some (s.pushes
      [s.gpr .eax, s.gpr .ecx, s.gpr .edx, s.gpr .ebx, s.esp, s.gpr .ebp, s.gpr .esi, s.gpr .edi])
  | .movImm r v, s => some { s with gpr := update s.gpr r ((s.gpr r).extractLsb' 16 16 ++ v) }
  | .movSeg d r, s =>
      if TakesData T s.cpl ((s.gpr r).setWidth 16) then
        some { s with seg := update s.seg d ((s.gpr r).setWidth 16) }
      else none
  | .movTop r offset, s => some { s with gpr := update s.gpr r (s.top offset) }
  | .orTop v, s => some { s with memory := store32 s.memory s.esp (s.top 0#32 ||| v) }
  | .call f, s => some (env f s)
  | .addEsp v, s => some { s with esp := s.esp + v }
  | .popSeg r, s =>
      if TakesData T s.cpl ((s.top 0#32).setWidth 16) then
        some { s with esp := s.esp + 4#32, seg := update s.seg r ((s.top 0#32).setWidth 16) }
      else none
  | .popad, s => some { s with
      esp := s.esp + 32#32
      -- the stored stack pointer is skipped
      gpr := fun r => match r with
        | .edi => s.top 0#32
        | .esi => s.top 4#32
        | .ebp => s.top 8#32
        | .ebx => s.top 16#32
        | .edx => s.top 20#32
        | .ecx => s.top 24#32
        | .eax => s.top 28#32 }
  | .iret, s => s.iret T

/-- A piece of straight-line code. -/
def run {F : Type*} (T : Tables) (env : F → Cpu → Cpu) : List (Instr F) → Cpu → Option Cpu
  | [], s => some s
  | i :: is, s => (i.step T env s).bind (run T env is)

/-! ### Delivery -/

/-- The processor's own part of an interrupt, up to the first instruction of the handler: on an interrupt
from an outer level the stack of level 0 is taken and the old one remembered there, the flags and the
return address are pushed, then the error code if the vector has one. -/
def deliver (T : Tables) (vector : BitVec 8) (err : Option (BitVec 32)) (s : Cpu) : Option Cpu :=
  let g := T.gate vector
  match T.segment g.selector with
  | none => none
  | some d =>
      if ¬ (g.present ∧ g.kind = 0x0E#5 ∧ d.present ∧ d.memory ∧ d.executable ∧ ¬ d.conforming ∧
          d.dpl = 0#2 ∧ s.eflags &&& virtualFlag = 0#32) then none
      else if s.cpl = 0#2 then
        some { s.pushes ([s.eflags, s.cs.setWidth 32, s.eip] ++ err.toList) with
          cs := g.selector &&& 0xFFFC#16, eip := g.offset, eflags := s.eflags &&& ~~~ gateCleared }
      else if TakesStack T 0#2 T.ss0 then
        some { { s with ss := T.ss0, esp := T.esp0 }.pushes
            ([s.ss.setWidth 32, s.esp, s.eflags, s.cs.setWidth 32, s.eip] ++ err.toList) with
          cs := g.selector &&& 0xFFFC#16, eip := g.offset, eflags := s.eflags &&& ~~~ gateCleared }
      else none

/-! ### Words on the stack -/

/-- The words lie one behind the other from an address on. -/
def WordsAt (memory : BitVec 32 → BitVec 8) (a : BitVec 32) (ws : List (BitVec 32)) : Prop :=
  HoldsAt memory a (ws.flatMap bytesOf32)

/-- Only bytes of the range from `lo` to `hi` differ. -/
def ChangesWithin (lo hi : ℕ) (memory memory' : BitVec 32 → BitVec 8) : Prop :=
  ∀ b : BitVec 32, b.toNat < lo ∨ hi ≤ b.toNat → memory' b = memory b

section
variable {memory memory' memory'' : BitVec 32 → BitVec 8} {a v w : BitVec 32} {ws : List (BitVec 32)}

/-- Words laid out as bytes take four bytes each. -/
theorem length_flatMap_bytesOf32 (ws : List (BitVec 32)) :
    (ws.flatMap bytesOf32).length = 4 * ws.length := by
  induction ws with
  | nil => rfl
  | cons w ws ih =>
    rw [List.flatMap_cons, List.length_append, ih, length_bytesOf32, List.length_cons]
    omega

/-- There are no words. -/
theorem wordsAt_nil (memory : BitVec 32 → BitVec 8) (a : BitVec 32) : WordsAt memory a [] :=
  fun _ _ hi => absurd hi (by simp)

/-- The first of the words is the one at the address. -/
theorem WordsAt.head (h : WordsAt memory a (w :: ws)) : load32 memory a = w :=
  HoldsAt.load32_eq (HoldsAt.append_left h)

/-- The other words start four bytes further. -/
theorem WordsAt.tail (h : WordsAt memory a (w :: ws)) : WordsAt memory (a + 4#32) ws := by
  have hrest := HoldsAt.append_right h
  exact hrest

/-- The words behind the first ones. -/
theorem WordsAt.drop (us : List (BitVec 32)) (h : WordsAt memory a (us ++ ws)) :
    WordsAt memory (a + BitVec.ofNat 32 (4 * us.length)) ws := by
  unfold WordsAt at h
  rw [List.flatMap_append] at h
  rw [← length_flatMap_bytesOf32]
  exact HoldsAt.append_right h

/-- A word is read at its place. -/
theorem WordsAt.load (h : WordsAt memory a ws) (i : ℕ) (hi : ws[i]? = some w) :
    load32 memory (a + BitVec.ofNat 32 (4 * i)) = w := by
  induction ws generalizing a i with
  | nil => exact absurd hi (by simp)
  | cons w' ws ih =>
    cases i with
    | zero =>
      obtain rfl : w' = w := by simpa using hi
      simpa using h.head
    | succ i =>
      have hrest := ih h.tail i (by simpa using hi)
      rwa [show 4 * (i + 1) = 4 + 4 * i by omega, BitVec.ofNat_add, ← BitVec.add_assoc]

/-- A stored word lies in front of what lay behind it. -/
theorem WordsAt.store (h : WordsAt memory (a + 4#32) ws) (hlen : 4 * ws.length + 4 ≤ 2 ^ 32) (v : BitVec 32) :
    WordsAt (store32 memory a v) a (v :: ws) := by
  intro i x hi
  have hlt := (List.getElem?_eq_some_iff.mp hi).1
  rw [length_flatMap_bytesOf32, List.length_cons] at hlt
  have hsub : (a + BitVec.ofNat 32 i - a).toNat = i := by
    rw [BitVec.add_comm, BitVec.add_sub_cancel, BitVec.toNat_ofNat]
    omega
  rw [List.flatMap_cons] at hi
  unfold store32
  rw [hsub]
  by_cases hi4 : i < 4
  · rw [List.getElem?_append_left hi4] at hi
    rw [if_pos hi4, List.getD_eq_getElem?_getD, hi]
    rfl
  · rw [List.getElem?_append_right (by simpa using hi4)] at hi
    have hmem := h (i - 4) x hi
    rw [if_neg hi4]
    rwa [BitVec.add_assoc, show 4#32 = BitVec.ofNat 32 4 from rfl, ← BitVec.ofNat_add,
      show 4 + (i - 4) = i by omega] at hmem

/-- Words are not affected by changes elsewhere. -/
theorem WordsAt.congr (h : WordsAt memory a ws)
    (heq : ∀ b, (b - a).toNat < 4 * ws.length → memory' b = memory b) : WordsAt memory' a ws := by
  intro i x hi
  have hlt := (List.getElem?_eq_some_iff.mp hi).1
  rw [length_flatMap_bytesOf32] at hlt
  rw [heq _ ?_]
  · exact h i x hi
  · rw [BitVec.add_comm, BitVec.add_sub_cancel, BitVec.toNat_ofNat]
    omega

/-- Two changes within one range are one change within it. -/
theorem ChangesWithin.trans {lo hi : ℕ} (h : ChangesWithin lo hi memory memory')
    (h' : ChangesWithin lo hi memory' memory'') : ChangesWithin lo hi memory memory'' :=
  fun b hb => (h' b hb).trans (h b hb)

/-- A change within a range is within any wider one. -/
theorem ChangesWithin.mono {lo hi lo' hi' : ℕ} (h : ChangesWithin lo hi memory memory') (hlo : lo' ≤ lo)
    (hhi : hi ≤ hi') : ChangesWithin lo' hi' memory memory' :=
  fun b hb => h b (by omega)

/-- A store of a word that does not wrap changes its four bytes and no others. -/
theorem changesWithin_store32 (h : a.toNat + 4 ≤ 2 ^ 32) (v : BitVec 32) :
    ChangesWithin a.toNat (a.toNat + 4) memory (store32 memory a v) := by
  intro b hb
  refine if_neg ?_
  rw [BitVec.toNat_sub]
  have := b.isLt
  omega

end

section Push
variable {s : Cpu} {ws vs : List (BitVec 32)}

@[simp] theorem pushes_nil (s : Cpu) : s.pushes [] = s := rfl

/-- Pushing a list pushes its head first. -/
theorem pushes_cons (s : Cpu) (v : BitVec 32) (vs : List (BitVec 32)) :
    s.pushes (v :: vs) = (s.push v).pushes vs := rfl

/-- Pushing a concatenation pushes its parts in turn. -/
theorem pushes_append (s : Cpu) (vs us : List (BitVec 32)) :
    s.pushes (vs ++ us) = (s.pushes vs).pushes us := List.foldl_append ..

/-- Pushing moves the stack pointer and writes below it, and nothing else. -/
theorem pushes_eq (s : Cpu) (vs : List (BitVec 32)) : s.pushes vs =
    { s with esp := s.esp - BitVec.ofNat 32 (4 * vs.length), memory := (s.pushes vs).memory } := by
  induction vs generalizing s with
  | nil => simp [Cpu.pushes]
  | cons v vs ih =>
    rw [pushes_cons, ih]
    ext1
    case esp =>
      change s.esp - 4#32 - _ = _
      rw [List.length_cons, show 4 * (vs.length + 1) = 4 * vs.length + 4 by omega, BitVec.ofNat_add]
      bv_omega
    all_goals rfl

/-- Pushing does not depend on the code that runs. -/
theorem pushes_with (s : Cpu) (cs : BitVec 16) (eip eflags : BitVec 32) (vs : List (BitVec 32)) :
    ({ s with cs := cs, eip := eip, eflags := eflags } : Cpu).pushes vs =
      { s.pushes vs with cs := cs, eip := eip, eflags := eflags } := by
  induction vs generalizing s with
  | nil => rfl
  | cons v vs ih => exact ih (s.push v)

/-- **The pushed words lie on the stack, the last one on top**, above what lay there. -/
theorem wordsAt_pushes (vs : List (BitVec 32)) (h : WordsAt s.memory s.esp ws)
    (hlen : 4 * (vs.length + ws.length) ≤ 2 ^ 32) :
    WordsAt (s.pushes vs).memory (s.pushes vs).esp (vs.reverse ++ ws) := by
  induction vs generalizing s ws with
  | nil => exact h
  | cons v vs ih =>
    rw [List.length_cons] at hlen
    rw [pushes_cons, List.reverse_cons, List.append_assoc]
    have hpush : WordsAt (s.push v).memory (s.push v).esp (v :: ws) :=
      WordsAt.store (by rwa [BitVec.sub_add_cancel]) (by omega) v
    exact ih hpush (by rw [List.singleton_append, List.length_cons]; omega)

/-- Pushing writes just below the stack pointer. -/
theorem changesWithin_pushes (s : Cpu) (vs : List (BitVec 32)) (hroom : 4 * vs.length ≤ s.esp.toNat) :
    ChangesWithin (s.esp.toNat - 4 * vs.length) s.esp.toNat s.memory (s.pushes vs).memory := by
  induction vs generalizing s with
  | nil => exact fun _ _ => rfl
  | cons v vs ih =>
    rw [List.length_cons] at hroom
    have hesp : (s.push v).esp.toNat = s.esp.toNat - 4 := by
      change (s.esp - 4#32).toNat = _
      bv_omega
    have hstore : ChangesWithin (s.push v).esp.toNat ((s.push v).esp.toNat + 4) s.memory (s.push v).memory :=
      changesWithin_store32 (a := (s.push v).esp) (by have := s.esp.isLt; omega) v
    have hrest := ih (s := s.push v) (by omega)
    rw [hesp] at hstore hrest
    rw [List.length_cons, pushes_cons]
    exact (hstore.mono (by omega) (by omega)).trans (hrest.mono (by omega) (by omega))

end Push

/-! ### Delivery and return -/

/-- What the processor pushes in front of the error code. -/
def Cpu.saved (s : Cpu) : List (BitVec 32) :=
  (if s.cpl = 0#2 then [] else [s.ss.setWidth 32, s.esp]) ++ [s.eflags, s.cs.setWidth 32, s.eip]

/-- The stack an interrupt uses: that of the interrupted code at level 0, else the one of level 0. -/
def Tables.stackFor (T : Tables) (s : Cpu) : BitVec 16 × BitVec 32 :=
  if s.cpl = 0#2 then (s.ss, s.esp) else (T.ss0, T.esp0)

/-- The gate of a vector is an interrupt gate to code of level 0, and level 0 has a stack. -/
structure Tables.Enters (T : Tables) (vector : BitVec 8) : Prop where
  present : (T.gate vector).present
  kind : (T.gate vector).kind = 0x0E#5
  code : ∃ d, T.segment (T.gate vector).selector = some d ∧ d.present ∧ d.memory ∧ d.executable ∧
    ¬ d.conforming ∧ d.dpl = 0#2
  stack : TakesStack T 0#2 T.ss0

/-- What the code that calls a function for an interrupt relies on: the stack pointer, the level and the
nested-task flag are as before. -/
structure KeepsStack (before after : Cpu) : Prop where
  esp : after.esp = before.esp
  cs : after.cs = before.cs
  ss : after.ss = before.ss
  nested : after.eflags &&& nestedFlag = before.eflags &&& nestedFlag

section
variable {T : Tables} {s a : Cpu} {vector : BitVec 8}

/-- The registers with which the first instruction of a handler is executed, before anything is pushed. -/
def Tables.entering (T : Tables) (vector : BitVec 8) (s : Cpu) : Cpu :=
  { s with
    ss := (T.stackFor s).1, esp := (T.stackFor s).2, cs := (T.gate vector).selector &&& 0xFFFC#16,
    eip := (T.gate vector).offset, eflags := s.eflags &&& ~~~ gateCleared }

/-- The state in which the first instruction of a handler is executed. -/
theorem deliver_eq (hT : T.Enters vector) (err : Option (BitVec 32)) (hvm : s.eflags &&& virtualFlag = 0#32) :
    deliver T vector err s = some ((T.entering vector s).pushes (s.saved ++ err.toList)) := by
  obtain ⟨d, hd, hpresent, hmemory, hexec, hconf, hdpl⟩ := hT.code
  unfold deliver
  simp only [hd]
  rw [if_neg (not_not.mpr ⟨hT.present, hT.kind, hpresent, hmemory, hexec, hconf, hdpl, hvm⟩)]
  unfold Tables.entering Cpu.saved Tables.stackFor
  by_cases h : s.cpl = 0#2
  · simp only [if_pos h, List.nil_append]
    exact congrArg some (pushes_with s _ _ _ _).symm
  · simp only [if_neg h, if_pos hT.stack, List.cons_append, List.nil_append]
    exact congrArg some (pushes_with { s with ss := T.ss0, esp := T.esp0 } _ _ _ _).symm

/-- A loaded selector is kept by a return to the level it was loaded at. -/
theorem keptData_eq {cpl : BitVec 2} {selector : BitVec 16} (h : TakesData T cpl selector) :
    keptData T cpl selector = selector := by
  unfold keptData
  split
  · rfl
  · rename_i d hd
    refine if_pos ?_
    rcases h with h | ⟨d', hd', -, -, -, hlevel⟩
    · exact .inl h
    · obtain rfl : d = d' := Option.some.inj (hd.symm.trans hd')
      tauto

/-- A selector pushed as a word and popped again is the same selector. -/
theorem setWidth_selector (selector : BitVec 16) : (selector.setWidth 32).setWidth 16 = selector :=
  BitVec.setWidth_setWidth_of_le _ (by decide)

/-- **`iret` returns to the code whose state is on the stack.** At level 0 the stack goes on above the
frame. -/
theorem iret_saved {c : Cpu} {ws : List (BitVec 32)} (hcpl : a.cpl = 0#2)
    (hnested : a.eflags &&& nestedFlag = 0#32) (hc : c.Loaded T) (hvm : c.eflags &&& virtualFlag = 0#32)
    (hframe : WordsAt a.memory a.esp (c.saved.reverse ++ ws)) (hseg : a.seg = c.seg)
    (hstack : c.cpl = 0#2 → a.ss = c.ss ∧ a.esp + 12#32 = c.esp) :
    a.iret T = some { c with gpr := a.gpr, memory := a.memory } := by
  have heip : a.top 0#32 = c.eip := by
    refine hframe.load 0 ?_
    simp [Cpu.saved]
  have hcs : a.top 4#32 = c.cs.setWidth 32 := by
    refine hframe.load 1 ?_
    simp [Cpu.saved]
  have hflags : a.top 8#32 = c.eflags := by
    refine hframe.load 2 ?_
    simp [Cpu.saved]
  unfold Cpu.iret
  simp only [heip, hcs, hflags, setWidth_selector]
  rw [if_neg (by simp [hcpl, hnested, hvm, hc.code])]
  by_cases h : c.cpl = 0#2
  · obtain ⟨hss, hesp⟩ := hstack h
    rw [if_pos (show rpl c.cs = 0#2 from h), hesp, hseg, hss]
  · have hold : a.top 12#32 = c.esp := by
      refine hframe.load 3 ?_
      simp [Cpu.saved, h]
    have hss : a.top 16#32 = c.ss.setWidth 32 := by
      refine hframe.load 4 ?_
      simp [Cpu.saved, h]
    simp only [hold, hss, setWidth_selector]
    rw [if_neg (show ¬ rpl c.cs = 0#2 from h), if_pos (show TakesStack T (rpl c.cs) c.ss from hc.stack)]
    have hkept : (fun r => keptData T (rpl c.cs) (a.seg r)) = c.seg := by
      funext r
      rw [hseg]
      exact keptData_eq (hc.data r)
    rw [hkept]

end

/-! ### Running code -/

section
variable {F : Type*} {T : Tables} {env : F → Cpu → Cpu}

/-- A piece of code runs, then the next one. -/
theorem run_append (is js : List (Instr F)) (s : Cpu) :
    run T env (is ++ js) s = (run T env is s).bind (run T env js) := by
  induction is generalizing s with
  | nil => rfl
  | cons i is ih =>
    rw [List.cons_append, run, run, Option.bind_assoc]
    exact congrArg _ (funext ih)

/-- An instruction runs, then the rest. -/
theorem run_cons {i : Instr F} {is : List (Instr F)} {s t : Cpu} (h : i.step T env s = some t) :
    run T env (i :: is) s = run T env is t := by
  rw [run, h, Option.bind_some]

/-- A data segment register is loaded. -/
theorem run_movSeg {is : List (Instr F)} {s : Cpu} {d : DataSeg} {r : Gpr} {selector : BitVec 16}
    (hr : (s.gpr r).setWidth 16 = selector) (h : TakesData T s.cpl selector) :
    run T env (.movSeg d r :: is) s = run T env is { s with seg := update s.seg d selector } :=
  run_cons (by
    subst hr
    exact if_pos h)

/-- A data segment register is loaded from the stack. -/
theorem run_popSeg {is : List (Instr F)} {s : Cpu} {r : DataSeg} {selector : BitVec 16}
    (hr : (s.top 0#32).setWidth 16 = selector) (h : TakesData T s.cpl selector) :
    run T env (.popSeg r :: is) s =
      run T env is { s with esp := s.esp + 4#32, seg := update s.seg r selector } :=
  run_cons (by
    subst hr
    exact if_pos h)

/-- One selector goes to all data segment registers. -/
theorem run_movSegs {is : List (Instr F)} {s : Cpu} {r : Gpr} {selector : BitVec 16}
    (hr : (s.gpr r).setWidth 16 = selector) (h : TakesData T s.cpl selector) :
    run T env (.movSeg .ds r :: .movSeg .es r :: .movSeg .fs r :: .movSeg .gs r :: is) s =
      run T env is { s with seg := fun _ => selector } := by
  have hstep : ∀ d seg js, run T env (.movSeg d r :: js) { s with seg := seg } =
      run T env js { s with seg := update seg d selector } :=
    fun _ seg _ => run_movSeg (s := { s with seg := seg }) hr h
  rw [hstep, hstep, hstep, hstep]
  refine congrArg (fun seg => run T env is { s with seg := seg }) (funext fun d => ?_)
  cases d <;> rfl

/-- All data segment registers are loaded from the stack. -/
theorem run_popSegs {is : List (Instr F)} {s : Cpu} {f : DataSeg → BitVec 16} {ws : List (BitVec 32)}
    (hw : WordsAt s.memory s.esp ((f .gs).setWidth 32 :: (f .fs).setWidth 32 :: (f .es).setWidth 32 ::
      (f .ds).setWidth 32 :: ws)) (h : ∀ r, TakesData T s.cpl (f r)) :
    run T env (.popSeg .gs :: .popSeg .fs :: .popSeg .es :: .popSeg .ds :: is) s =
      run T env is { s with esp := s.esp + 16#32, seg := f } := by
  have hstep : ∀ r esp seg js us, WordsAt s.memory esp ((f r).setWidth 32 :: us) →
      run T env (.popSeg r :: js) { s with esp := esp, seg := seg } =
        run T env js { s with esp := esp + 4#32, seg := update seg r (f r) } := by
    intro r esp seg js us hus
    refine run_popSeg (s := { s with esp := esp, seg := seg }) ?_ (h r)
    have htop : load32 s.memory (esp + 0#32) = (f r).setWidth 32 := by
      rw [BitVec.add_zero]
      exact hus.head
    exact (congrArg _ htop).trans (setWidth_selector _)
  rw [hstep _ _ _ _ _ hw, hstep _ _ _ _ _ hw.tail, hstep _ _ _ _ _ hw.tail.tail,
    hstep _ _ _ _ _ hw.tail.tail.tail]
  have hesp : s.esp + 4#32 + 4#32 + 4#32 + 4#32 = s.esp + 16#32 := by bv_omega
  rw [hesp]
  refine congrArg (fun seg => run T env is { s with esp := s.esp + 16#32, seg := seg }) (funext fun d => ?_)
  cases d <;> rfl

/-- The general registers are loaded from the stack. -/
theorem run_popad {is : List (Instr F)} {s : Cpu} {g : Gpr → BitVec 32} {skipped : BitVec 32}
    {ws : List (BitVec 32)}
    (hw : WordsAt s.memory s.esp (g .edi :: g .esi :: g .ebp :: skipped :: g .ebx :: g .edx :: g .ecx ::
      g .eax :: ws)) :
    run T env (.popad :: is) s = run T env is { s with esp := s.esp + 32#32, gpr := g } := by
  refine run_cons (congrArg some ?_)
  ext1
  case gpr =>
    funext r
    cases r
    case edi => exact hw.load 0 rfl
    case esi => exact hw.load 1 rfl
    case ebp => exact hw.load 2 rfl
    case ebx => exact hw.load 4 rfl
    case edx => exact hw.load 5 rfl
    case ecx => exact hw.load 6 rfl
    case eax => exact hw.load 7 rfl
  all_goals rfl

end

end Microkernel.X86
