import Microkernel.Core.Printk
import Mathlib.Logic.Function.Basic

/-! # System calls

`syscall.c`: a table of handlers, filled with three of them, and the dispatch on the call number. A handler
sees the registers of the caller and the memory; what it does is recorded as the addresses it reads, the
characters it prints and its result. `sys_write` is the only handler that reads memory of the caller.

* **`SyscallEffect`** — such a record. `Confined` says of it that memory from `KERNEL_VIRT_OFFSET` on has
  no part in it.
* **`syscallDispatch`** — looks the number up in the table, and answers `-ENOSYS` when no handler is
  there.
* **`sysWrite_confined_iff`** — the check compares the first byte of the range only, so a range that
  starts below the kernel and ends in it is printed whole.
-/

namespace Microkernel.Core

open Function (update)

/-- `%08x`: padded with zeros on the left. -/
def printHex8 (value : U32) : List U8 :=
  List.replicate (8 - (fmtU32Hex value).length) 0x30#8 ++ fmtU32Hex value

/-! ### Handlers -/

/-- `syscall_regs_t`. -/
structure SyscallRegs where
  nr : U32
  arg1 : U32
  arg2 : U32
  arg3 : U32
  arg4 : U32
  arg5 : U32

/-- What a call does: the addresses of the caller's memory that it reads, the characters it prints, and its
result, `none` when it does not return. -/
structure SyscallEffect where
  reads : List U32
  output : List U8
  result : Option U32

/-- A handler, given the memory. -/
abbrev SyscallHandler := (U32 → U8) → SyscallRegs → SyscallEffect

/-- `KERNEL_VIRT_OFFSET`. -/
def userEnd : U32 := 0xC0000000#32

/-- The loop of `sys_write` from `i` on, with the rounds that are left: the addresses it reads. -/
def sysWriteLoop (p : U32) : ℕ → U32 → List U32
  | 0, _ => []
  | n + 1, i => (p + i) :: sysWriteLoop p n (i + 1#32)

/-- `sys_write(regs)`. -/
def sysWrite : SyscallHandler := fun memory regs =>
  let fd := regs.arg1
  let buf := regs.arg2
  let count := regs.arg3
  if fd ≠ 1#32 ∧ fd ≠ 2#32 then ⟨[], [], some (-1#32)⟩
  else if buf ≥ userEnd then
    ⟨[], cString "[syscall] write: bad user pointer 0x" ++ printHex8 buf ++ cString "\n", some (-1#32)⟩
  else
    let count := if count > 4096#32 then 4096#32 else count
    let reads := sysWriteLoop buf count.toNat 0#32
    ⟨reads, reads.map memory, some count⟩

/-- `sys_exit(regs)`: the processor is halted. -/
def sysExit : SyscallHandler := fun _ regs =>
  ⟨[], cString "[syscall] exit(status=" ++ fmtIntDec regs.arg1 ++ cString ")\n", none⟩

/-- `sys_brk(regs)`. -/
def sysBrk : SyscallHandler := fun _ regs =>
  ⟨[], cString "[syscall] brk(0x" ++ printHex8 regs.arg1 ++
    cString ") — stub, returning 0x00400000\n", some 0x00400000#32⟩

/-- `SYSCALL_MAX`. -/
def syscallMax : U32 := 256#32

/-- `syscall_register(nr, handler)`; a table entry `none` is `NULL`. -/
def syscallRegister (nr : U32) (handler : SyscallHandler) (table : U32 → Option SyscallHandler) :
    (U32 → Option SyscallHandler) × Int :=
  if nr = 0#32 ∨ nr ≥ syscallMax then (table, -1) else (update table nr (some handler), 0)

/-- `syscall_table` after `syscall_init()`. -/
def syscallInit : U32 → Option SyscallHandler :=
  let table := (syscallRegister 1#32 sysExit fun _ => none).1
  let table := (syscallRegister 4#32 sysWrite table).1
  (syscallRegister 45#32 sysBrk table).1

/-- `syscall_dispatch(regs)`, where `-ENOSYS` is `-38`. -/
def syscallDispatch (table : U32 → Option SyscallHandler) : SyscallHandler := fun memory regs =>
  let unknown : SyscallEffect :=
    ⟨[], cString "[syscall] unknown syscall nr=" ++ fmtU32Dec regs.nr ++ cString "\n", some (-38#32)⟩
  if regs.nr ≥ syscallMax then unknown
  else
    match table regs.nr with
    | none => unknown
    | some handler => handler memory regs

/-! ### What a call reveals -/

/-- Two memories that a user program cannot tell apart. -/
def AgreeBelow (memory memory' : U32 → U8) : Prop := ∀ a, a < userEnd → memory a = memory' a

/-- **The call reveals user memory only**: what it prints and returns does not depend on the memory from
`KERNEL_VIRT_OFFSET` on. -/
def Confined (handler : SyscallHandler) (regs : SyscallRegs) : Prop :=
  ∀ memory memory', AgreeBelow memory memory' →
    (handler memory regs).output = (handler memory' regs).output ∧
      (handler memory regs).result = (handler memory' regs).result

/-- Every byte the call reads is user memory. -/
def ReadsBelow (handler : SyscallHandler) (regs : SyscallRegs) : Prop :=
  ∀ memory, ∀ a ∈ (handler memory regs).reads, a < userEnd

/-- The descriptor is refused, the pointer is refused, or the whole range is in user memory. -/
def WritesUserRange (regs : SyscallRegs) : Prop :=
  (regs.arg1 ≠ 1#32 ∧ regs.arg1 ≠ 2#32) ∨ regs.arg2 ≥ userEnd ∨
    regs.arg2.toNat + min regs.arg3.toNat 4096 ≤ userEnd.toNat

section Write
variable {regs : SyscallRegs} {p : U32}

/-- The loop reads the bytes of a range. -/
theorem mem_sysWriteLoop {a : U32} {n i : ℕ} (hi : i + n ≤ 4096) (hp : p < userEnd) :
    a ∈ sysWriteLoop p n (BitVec.ofNat 32 i) ↔
      p.toNat + i ≤ a.toNat ∧ a.toNat < p.toNat + i + n := by
  rw [BitVec.lt_def, show userEnd.toNat = 3221225472 from rfl] at hp
  induction n generalizing i with
  | zero =>
    simp only [sysWriteLoop, List.not_mem_nil, false_iff]
    omega
  | succ n ih =>
    have hnext : BitVec.ofNat 32 i + 1#32 = BitVec.ofNat 32 (i + 1) := (BitVec.ofNat_add i 1).symm
    have hfirst : (p + BitVec.ofNat 32 i).toNat = p.toNat + i := by
      rw [BitVec.toNat_add, BitVec.toNat_ofNat]
      omega
    rw [sysWriteLoop, List.mem_cons, hnext, ih (by omega), ← BitVec.toNat_inj, hfirst]
    omega

/-- `sys_write` refuses its arguments, or prints the bytes of the clamped range. -/
theorem sysWrite_cases (regs : SyscallRegs) :
    (WritesUserRange regs ∧ ∃ output, ∀ memory, sysWrite memory regs = ⟨[], output, some (-1#32)⟩) ∨
    regs.arg2 < userEnd ∧
      (WritesUserRange regs ↔ regs.arg2.toNat + min regs.arg3.toNat 4096 ≤ userEnd.toNat) ∧
      ∃ reads count, reads = sysWriteLoop regs.arg2 (min regs.arg3.toNat 4096) 0#32 ∧
        ∀ memory, sysWrite memory regs = ⟨reads, reads.map memory, some count⟩ := by
  by_cases hfd : regs.arg1 ≠ 1#32 ∧ regs.arg1 ≠ 2#32
  · exact .inl ⟨.inl hfd, [], fun _ => if_pos hfd⟩
  by_cases hbuf : regs.arg2 ≥ userEnd
  · exact .inl ⟨.inr (.inl hbuf), _, fun _ => (if_neg hfd).trans (if_pos hbuf)⟩
  right
  have hcount : (if regs.arg3 > 4096#32 then 4096#32 else regs.arg3).toNat =
      min regs.arg3.toNat 4096 := by
    split
    · rename_i hgt
      exact (min_eq_right (le_of_lt (BitVec.lt_def.mp hgt))).symm
    · rename_i hle
      exact (min_eq_left (BitVec.le_def.mp (BitVec.not_lt.mp hle))).symm
  refine ⟨BitVec.not_le.mp hbuf, ?_, _, if regs.arg3 > 4096#32 then 4096#32 else regs.arg3, rfl,
    fun memory => ?_⟩
  · unfold WritesUserRange
    tauto
  · rw [← hcount]
    exact (if_neg hfd).trans (if_neg hbuf)

/-- The bytes that are read are user memory exactly when the range is. -/
theorem sysWrite_readsBelow_iff (regs : SyscallRegs) :
    ReadsBelow sysWrite regs ↔ WritesUserRange regs := by
  rcases sysWrite_cases regs with ⟨hrange, output, heq⟩ | ⟨hlt, hrange, reads, count, rfl, heq⟩
  · refine iff_of_true (fun memory a ha => ?_) hrange
    rw [heq] at ha
    exact absurd ha List.not_mem_nil
  have hmem : ∀ a, a ∈ sysWriteLoop regs.arg2 (min regs.arg3.toNat 4096) 0#32 ↔
      regs.arg2.toNat ≤ a.toNat ∧ a.toNat < regs.arg2.toNat + min regs.arg3.toNat 4096 :=
    fun a => mem_sysWriteLoop (i := 0) (by omega) hlt
  rw [hrange]
  rw [BitVec.lt_def] at hlt
  constructor
  · intro h
    -- the first byte of the kernel would be read
    by_contra hover
    refine BitVec.lt_irrefl userEnd (h (fun _ => 0#8) userEnd ?_)
    rw [heq]
    exact (hmem _).mpr ⟨hlt.le, by omega⟩
  · intro h memory a ha
    rw [heq] at ha
    rw [BitVec.lt_def]
    have := ((hmem a).mp ha).2
    omega

/-- What is printed depends on user memory alone exactly when the range is user memory. -/
theorem sysWrite_hides_iff (regs : SyscallRegs) : Confined sysWrite regs ↔ WritesUserRange regs := by
  have hreads := sysWrite_readsBelow_iff regs
  refine ⟨fun h => ?_, fun hrange => ?_⟩
  · rcases sysWrite_cases regs with ⟨hrange, -⟩ | ⟨-, -, reads, count, -, heq⟩
    · exact hrange
    rw [← hreads]
    intro memory a ha
    by_contra hkernel
    rw [heq] at ha
    -- two memories that differ in this byte only are told apart
    have hagree : AgreeBelow (fun _ => 0#8) (update (fun _ : U32 => (0#8 : U8)) a 1#8) := by
      intro b hb
      have hne : b ≠ a := by
        rintro rfl
        exact hkernel hb
      exact (Function.update_of_ne hne 1#8 fun _ => 0#8).symm
    have hout := (h _ _ hagree).1
    rw [heq, heq] at hout
    have hbyte := List.map_inj_left.mp hout a ha
    rw [Function.update_self] at hbyte
    exact absurd hbyte (by decide)
  · intro memory memory' hagree
    have hbelow := hreads.mpr hrange memory
    rcases sysWrite_cases regs with ⟨-, output, heq⟩ | ⟨-, -, reads, count, -, heq⟩
    · rw [heq, heq]
      exact ⟨rfl, rfl⟩
    · rw [heq] at hbelow
      rw [heq, heq]
      exact ⟨List.map_congr_left fun a ha => hagree a (hbelow a ha), rfl⟩

/-- A dispatched call of number 4 is `sys_write`. -/
theorem syscallDispatch_write {regs : SyscallRegs} (hnr : regs.nr = 4#32) (memory : U32 → U8) :
    syscallDispatch syscallInit memory regs = sysWrite memory regs := by
  unfold syscallDispatch
  rw [hnr]
  rfl

/-- The other numbers have handlers that do not look at the memory, or none. -/
theorem syscallInit_cases {nr : U32} (hnr : nr ≠ 4#32) :
    syscallInit nr = none ∨ syscallInit nr = some sysExit ∨ syscallInit nr = some sysBrk := by
  have htable : syscallInit nr = if nr = 45#32 then some sysBrk else if nr = 4#32 then some sysWrite
      else if nr = 1#32 then some sysExit else none := by
    simp [syscallInit, syscallRegister, syscallMax, Function.update_apply]
  rw [htable]
  split
  · exact .inr (.inr rfl)
  split
  · exact .inr (.inl rfl)
  · exact .inl rfl

/-- **The other calls read no memory of the caller.** -/
theorem syscallDispatch_confined {regs : SyscallRegs} (hnr : regs.nr ≠ 4#32) :
    Confined (syscallDispatch syscallInit) regs ∧ ReadsBelow (syscallDispatch syscallInit) regs := by
  obtain ⟨output, result, heq⟩ : ∃ output result, ∀ memory,
      syscallDispatch syscallInit memory regs = ⟨[], output, result⟩ := by
    unfold syscallDispatch
    dsimp only
    split
    · exact ⟨_, _, fun _ => rfl⟩
    rcases syscallInit_cases hnr with h | h | h
    all_goals
      rw [h]
      exact ⟨_, _, fun _ => rfl⟩
  constructor
  · intro memory memory' _
    rw [heq, heq]
    exact ⟨rfl, rfl⟩
  · intro memory a ha
    rw [heq] at ha
    exact absurd ha List.not_mem_nil

/-- **`sys_write` reveals no kernel memory exactly when the range ends below it**, and then it reads none:
only the first byte of the range is compared with `KERNEL_VIRT_OFFSET`. The same holds of a call that is
dispatched by its number, and the calls of other numbers reveal nothing. -/
theorem sysWrite_confined_iff (regs : SyscallRegs) :
    (Confined sysWrite regs ↔ WritesUserRange regs) ∧ (ReadsBelow sysWrite regs ↔ WritesUserRange regs) ∧
      (Confined (syscallDispatch syscallInit) regs ↔ (regs.nr = 4#32 → WritesUserRange regs)) ∧
      (ReadsBelow (syscallDispatch syscallInit) regs ↔ (regs.nr = 4#32 → WritesUserRange regs)) := by
  refine ⟨sysWrite_hides_iff regs, sysWrite_readsBelow_iff regs, ?_⟩
  by_cases hnr : regs.nr = 4#32
  · have hwrite := syscallDispatch_write hnr
    unfold Confined ReadsBelow
    simp only [hwrite, hnr, forall_const]
    exact ⟨sysWrite_hides_iff regs, sysWrite_readsBelow_iff regs⟩
  · obtain ⟨hconfined, hreads⟩ := syscallDispatch_confined hnr
    exact ⟨iff_of_true hconfined fun h => absurd h hnr, iff_of_true hreads fun h => absurd h hnr⟩

end Write

/-- A buffer of two bytes whose second byte is the first one of the kernel. -/
def straddlingWrite : SyscallRegs := ⟨4#32, 1#32, 0xBFFFFFFF#32, 2#32, 0#32, 0#32⟩

/-- The byte behind user memory is printed. -/
theorem sysWrite_reveals : ¬ ∀ regs, Confined sysWrite regs := by
  intro hall
  have hout := (hall straddlingWrite (fun _ => 0#8) (fun a => if a < userEnd then 0#8 else 1#8)
    fun a ha => (if_pos ha).symm).1
  exact absurd hout (by decide)

end Microkernel.Core
