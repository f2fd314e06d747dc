import Microkernel.Lib.X86
import Microkernel.Word

/-! # The descriptor tables

`gdt.c`, `tss.c` and the table half of `idt.c`: how entries are packed, what the initialisation leaves in
the tables, and what the processor reads there. The addresses of the entry stubs are those that the linker
chose.

* **`gdtSetEntry`, `gdtSetTssEntry`, `idtSetGate`** — the packing, field by field as the source shifts and
  masks it. The processor reads an entry back with `ofDescriptor`, which knows nothing of the packing.
* **`ltr`** — what the instruction at the end of `tss_init` does to the table: it marks the task state
  segment busy.
* **`descriptors_read_back`** — for any arguments an entry is read as it was set, and no other entry
  changes.
* **`bootTables_spec`** — what the processor finds after `gdt_init`, `idt_init` and `tss_init`, whatever
  stood in the tables before.
-/

namespace Microkernel.Arch

open Function (update)
open X86 (Segment Gate Tables lookupSegment takeTask IsAvailableTask markBusy)

/-! ### The global table -/

/-- `gdt_entry_t`. -/
structure GdtEntry where
  limitLow : BitVec 16
  baseLow : BitVec 16
  baseMid : U8
  access : U8
  gran : U8
  baseHigh : U8

/-- The eight bytes of an entry; the structure is packed. -/
def GdtEntry.descriptor (e : GdtEntry) : BitVec 64 :=
  e.baseHigh ++ (e.gran ++ (e.access ++ (e.baseMid ++ (e.baseLow ++ e.limitLow))))

/-- `gdt_set_entry(idx, base, limit, access, flags)`. -/
def gdtSetEntry (idx : ℕ) (base limit : U32) (access flags : U8) (gdt : ℕ → GdtEntry) : ℕ → GdtEntry :=
  update gdt idx
    { limitLow := (limit &&& 0xFFFF#32).setWidth 16
      baseLow := (base &&& 0xFFFF#32).setWidth 16
      baseMid := ((base >>> 16) &&& 0xFF#32).setWidth 8
      baseHigh := ((base >>> 24) &&& 0xFF#32).setWidth 8
      access := access
      gran := (flags &&& 0xF0#8) ||| ((limit >>> 16) &&& 0x0F#32).setWidth 8 }

/-- The entries that `gdt_init()` sets. -/
def gdtInit (gdt : ℕ → GdtEntry) : ℕ → GdtEntry :=
  let gdt := gdtSetEntry 0 0#32 0#32 0#8 0#8 gdt
  let gdt := gdtSetEntry 1 0x00000000#32 0x000FFFFF#32 0x9A#8 0xC0#8 gdt
  let gdt := gdtSetEntry 2 0x00000000#32 0x000FFFFF#32 0x92#8 0xC0#8 gdt
  let gdt := gdtSetEntry 3 0x00000000#32 0x000FFFFF#32 0xFA#8 0xC0#8 gdt
  let gdt := gdtSetEntry 4 0x00000000#32 0x000FFFFF#32 0xF2#8 0xC0#8 gdt
  gdtSetEntry 5 0#32 0#32 0#8 0#8 gdt

/-- `gdtr.limit`: the size of `gdt[6]` less one. -/
def gdtrLimit : BitVec 16 := 47#16

/-- `gdt_set_tss_entry(base, limit)`. -/
def gdtSetTssEntry (base limit : U32) (gdt : ℕ → GdtEntry) : ℕ → GdtEntry :=
  gdtSetEntry 5 base limit 0x89#8 0x00#8 gdt

/-! ### Selectors -/

/-- `GDT_KERNEL_CODE_SEL`. -/
def kernelCodeSel : BitVec 16 := 0x08#16

/-- `GDT_KERNEL_DATA_SEL`. -/
def kernelDataSel : BitVec 16 := 0x10#16

/-- `GDT_USER_CODE_SEL`. -/
def userCodeSel : BitVec 16 := 0x1B#16

/-- `GDT_USER_DATA_SEL`. -/
def userDataSel : BitVec 16 := 0x23#16

/-- `GDT_TSS_SEL`. -/
def tssSel : BitVec 16 := 0x28#16

/-! ### The task state segment -/

/-- The fields of `tss_t` that are set or read; the others stay zero. -/
structure Tss where
  esp0 : U32
  ss0 : U32
  iomapBase : BitVec 16

/-- `sizeof(tss_t)`. -/
def sizeofTss : U32 := 104#32

/-- `ltr(sel)`: what the task register takes, and the table with the task marked busy. -/
def ltr (sel : BitVec 16) (gdt : ℕ → GdtEntry) : Option (Segment × (ℕ → GdtEntry)) :=
  (takeTask gdtrLimit (fun i => (gdt i).descriptor) sel).map fun task =>
    let idx := (sel.extractLsb' 3 13).toNat
    (task, update gdt idx { gdt idx with access := (gdt idx).access ||| 0x02#8 })

/-- `tss_init()`, where `&stack_top` and `&g_tss` are parameters: the task state segment, what the task
register takes, and the table. -/
def tssInit (stackTop gTss : U32) (gdt : ℕ → GdtEntry) : Option (Tss × Segment × (ℕ → GdtEntry)) :=
  let tss : Tss := ⟨0#32, 0#32, 0#16⟩
  let tss := { tss with ss0 := kernelDataSel.setWidth 32 }
  let tss := { tss with esp0 := stackTop }
  let tss := { tss with iomapBase := sizeofTss.setWidth 16 }
  let gdt := gdtSetTssEntry gTss (sizeofTss - 1#32) gdt
  (ltr tssSel gdt).map (tss, ·)

/-! ### The interrupt table -/

/-- `idt_entry_t`. -/
structure IdtEntry where
  offsetLow : BitVec 16
  selector : BitVec 16
  zero : U8
  typeAttr : U8
  offsetHigh : BitVec 16

/-- The eight bytes of an entry. -/
def IdtEntry.descriptor (e : IdtEntry) : BitVec 64 :=
  e.offsetHigh ++ (e.typeAttr ++ (e.zero ++ (e.selector ++ e.offsetLow)))

/-- `idt_set_gate(vector, handler, selector, type_attr)`. -/
def idtSetGate (vector : U8) (handler : U32) (selector : BitVec 16) (typeAttr : U8) (idt : U8 → IdtEntry) :
    U8 → IdtEntry :=
  update idt vector
    { offsetLow := (handler &&& 0xFFFF#32).setWidth 16
      selector := selector
      zero := 0#8
      typeAttr := typeAttr
      offsetHigh := ((handler >>> 16) &&& 0xFFFF#32).setWidth 16 }

/-- The entry stubs: `isr0` to `isr31` and `irq0` to `irq15`. -/
inductive Stub where
  | isr (vector : Fin 32)
  | irq (line : Fin 16)
  deriving DecidableEq

/-- The vector a stub is for. -/
def Stub.vector : Stub → U8
  | .isr v => BitVec.ofNat 8 v
  | .irq n => BitVec.ofNat 8 (0x20 + n)

/-- The stubs in the order in which `idt_init` installs them. -/
def installed : List Stub := (List.finRange 32).map .isr ++ (List.finRange 16).map .irq

/-- `INT_GATE`. -/
def intGate : U8 := 0x8E#8

/-- The entries that `idt_init()` sets: all of them zero, then one gate for each stub. -/
def idtInit (address : Stub → U32) : U8 → IdtEntry :=
  installed.foldl (fun idt stub => idtSetGate stub.vector (address stub) kernelCodeSel intGate idt)
    fun _ => ⟨0#16, 0#16, 0#8, 0#8, 0#16⟩

/-! ### Entries are read as they were set -/

/-- The bits that a shift and a mask select. -/
theorem shift_and_mask (x : U32) (n k : ℕ) (hk : k ≤ 32) :
    ((x >>> n) &&& BitVec.ofNat 32 (2 ^ k - 1)).setWidth k = x.extractLsb' n k := by
  apply BitVec.eq_of_toNat_eq
  rw [BitVec.toNat_setWidth, U32.toNat_and_low _ _ hk, BitVec.toNat_ushiftRight, BitVec.extractLsb'_toNat]
  exact Nat.mod_mod _ _

/-- The bits that a mask selects. -/
theorem and_mask (x : U32) (k : ℕ) (hk : k ≤ 32) :
    (x &&& BitVec.ofNat 32 (2 ^ k - 1)).setWidth k = x.extractLsb' 0 k := by
  simpa using shift_and_mask x 0 k hk

/-- The granularity byte: the flags above the high bits of the limit. -/
theorem gran_eq (flags : U8) (limit : U32) :
    (flags &&& 0xF0#8) ||| ((limit >>> 16) &&& 0x0F#32).setWidth 8 =
      flags.extractLsb' 4 4 ++ limit.extractLsb' 16 4 := by
  ext i hi
  rw [BitVec.getElem_or, BitVec.getElem_and, BitVec.getElem_append]
  simp only [BitVec.getElem_extractLsb', BitVec.getElem_setWidth, BitVec.getLsbD_and,
    BitVec.getLsbD_ushiftRight]
  have hmask : ∀ j < 8, (0xF0#8).getLsbD j = decide (4 ≤ j) ∧ (0x0F#32).getLsbD j = decide (j < 4) := by
    decide
  obtain ⟨h₁, h₂⟩ := hmask i hi
  rw [← BitVec.getLsbD_eq_getElem hi (x := 0xF0#8), h₁, h₂]
  -- below bit 4 the limit, above it the flags
  by_cases h : i < 4
  · simp [h, Nat.not_le.mpr h]
  · rw [Nat.not_lt] at h
    simp [h, Nat.not_lt.mpr h, BitVec.getLsbD_eq_getElem hi]

/-- The bits that `gdt_set_entry` sets. -/
theorem getLsbD_gdtSetEntry (idx : ℕ) (base limit : U32) (access flags : U8) (gdt : ℕ → GdtEntry) (i : ℕ)
    (hi : i < 64) : (gdtSetEntry idx base limit access flags gdt idx).descriptor.getLsbD i =
      if i < 16 then limit.getLsbD i
      else if i < 40 then base.getLsbD (i - 16)
      else if i < 48 then access.getLsbD (i - 40)
      else if i < 52 then limit.getLsbD (i - 32)
      else if i < 56 then flags.getLsbD (i - 48)
      else base.getLsbD (i - 32) := by
  have hmid : ((base >>> 16) &&& 0xFF#32).setWidth 8 = base.extractLsb' 16 8 :=
    shift_and_mask base 16 8 (by decide)
  have hhigh : ((base >>> 24) &&& 0xFF#32).setWidth 8 = base.extractLsb' 24 8 :=
    shift_and_mask base 24 8 (by decide)
  have hlow : ∀ x : U32, (x &&& 0xFFFF#32).setWidth 16 = x.extractLsb' 0 16 :=
    fun x => and_mask x 16 (by decide)
  unfold gdtSetEntry
  rw [Function.update_self]
  unfold GdtEntry.descriptor
  simp only [gran_eq, hmid, hhigh, hlow, BitVec.getLsbD_append, BitVec.getLsbD_extractLsb']
  grind

/-- **A segment descriptor is read as it was set**: the base whole, the low twenty bits of the limit, the
bits of the access byte, and the high half of the flags. -/
theorem ofDescriptor_gdtSetEntry (idx : ℕ) (base limit : U32) (access flags : U8) (gdt : ℕ → GdtEntry) :
    Segment.ofDescriptor (gdtSetEntry idx base limit access flags gdt idx).descriptor =
      { base := base, limit := limit.setWidth 20, present := access.getLsbD 7, dpl := access.extractLsb' 5 2,
        memory := access.getLsbD 4, executable := access.getLsbD 3, conforming := access.getLsbD 2,
        accessible := access.getLsbD 1, flags := flags.extractLsb' 4 4 } := by
  have hbit := getLsbD_gdtSetEntry idx base limit access flags gdt
  generalize (gdtSetEntry idx base limit access flags gdt idx).descriptor = d at hbit
  unfold Segment.ofDescriptor
  congr 1
  case e_base =>
    refine BitVec.eq_of_getLsbD_eq fun i hi => ?_
    simp only [BitVec.getLsbD_append, BitVec.getLsbD_extractLsb']
    grind
  case e_limit =>
    refine BitVec.eq_of_getLsbD_eq fun i hi => ?_
    simp only [BitVec.getLsbD_append, BitVec.getLsbD_extractLsb', BitVec.getLsbD_setWidth]
    grind
  case e_dpl | e_flags =>
    refine BitVec.eq_of_getLsbD_eq fun i hi => ?_
    simp only [BitVec.getLsbD_extractLsb']
    grind
  all_goals exact hbit _ (by decide)

/-! ### The task state segment is taken -/

/-- The bit that `ltr` sets is the one that marks a task busy. -/
theorem descriptor_busy (e : GdtEntry) :
    ({ e with access := e.access ||| 0x02#8 } : GdtEntry).descriptor = markBusy e.descriptor := by
  unfold GdtEntry.descriptor markBusy
  refine BitVec.eq_of_getLsbD_eq fun i hi => ?_
  -- bit 1 of the access byte is bit 41 of the descriptor
  have hmask : ∀ i < 64, (0x20000000000#64).getLsbD i =
      (decide (40 ≤ i ∧ i < 48) && (0x02#8).getLsbD (i - 40)) := by decide
  rw [BitVec.getLsbD_or, hmask i hi]
  simp only [BitVec.getLsbD_append, BitVec.getLsbD_or]
  grind

/-- The entry of the task state segment is available. -/
theorem isAvailableTask_gdtSetTssEntry (base limit : U32) (gdt : ℕ → GdtEntry) :
    IsAvailableTask (gdtSetTssEntry base limit gdt 5).descriptor := by
  have hbit := getLsbD_gdtSetEntry 5 base limit 0x89#8 0x00#8 gdt
  unfold gdtSetTssEntry IsAvailableTask
  refine ⟨(hbit 44 (by decide)).trans rfl, BitVec.eq_of_getLsbD_eq fun i hi => ?_⟩
  have htype : ∀ i < 3, (0x89#8).getLsbD i = (0x1#3).getLsbD i := by decide
  rw [BitVec.getLsbD_extractLsb', hbit _ (by omega), ← htype i hi]
  simp only [hi, decide_true, Bool.true_and]
  rw [if_neg (by omega), if_neg (by omega), if_pos (by omega), Nat.add_sub_cancel_left]

/-- What the task register holds: a task state segment at `base`. -/
def taskSegment (base : U32) : Segment :=
  { base := base, limit := 103#20, present := true, dpl := 0#2, memory := false, executable := true,
    conforming := false, accessible := false, flags := 0#4 }

/-- **`tss_init` returns**, whatever the table held: the task state segment is available when it is loaded,
and it is busy afterwards. -/
theorem tssInit_eq (stackTop gTss : U32) (gdt : ℕ → GdtEntry) :
    tssInit stackTop gTss gdt = some (⟨stackTop, kernelDataSel.setWidth 32, sizeofTss.setWidth 16⟩,
      taskSegment gTss, gdtSetEntry 5 gTss (sizeofTss - 1#32) 0x8B#8 0x00#8 gdt) := by
  have hfound : X86.lookupSegment gdtrLimit
      (fun i => (gdtSetTssEntry gTss (sizeofTss - 1#32) gdt i).descriptor) tssSel = some (taskSegment gTss) := by
    refine Eq.trans (congrArg some ?_) rfl
    exact ofDescriptor_gdtSetEntry 5 gTss (sizeofTss - 1#32) 0x89#8 0x00#8 gdt
  have htake : takeTask gdtrLimit (fun i => (gdtSetTssEntry gTss (sizeofTss - 1#32) gdt i).descriptor) tssSel =
      some (taskSegment gTss) := by
    unfold takeTask
    rw [hfound, Option.filter_some, if_pos]
    exact Bool.and_eq_true_iff.mpr ⟨rfl, decide_eq_true (isAvailableTask_gdtSetTssEntry gTss _ gdt)⟩
  unfold tssInit ltr
  dsimp only
  rw [htake]
  have hidx : (tssSel.extractLsb' 3 13).toNat = 5 := rfl
  refine congrArg some (Prod.ext rfl (Prod.ext rfl ?_))
  dsimp only
  rw [hidx]
  unfold gdtSetTssEntry gdtSetEntry
  rw [Function.update_self, Function.update_idem]
  dsimp only
  -- an available task becomes a busy one
  rw [show 0x89#8 ||| 0x02#8 = 0x8B#8 by decide]

/-- The bits that `idt_set_gate` sets. -/
theorem getLsbD_idtSetGate (vector : U8) (handler : U32) (selector : BitVec 16) (typeAttr : U8)
    (idt : U8 → IdtEntry) (i : ℕ) (hi : i < 64) :
    (idtSetGate vector handler selector typeAttr idt vector).descriptor.getLsbD i =
      if i < 16 then handler.getLsbD i
      else if i < 32 then selector.getLsbD (i - 16)
      else if i < 40 then false
      else if i < 48 then typeAttr.getLsbD (i - 40)
      else handler.getLsbD (i - 32) := by
  have hhigh : ((handler >>> 16) &&& 0xFFFF#32).setWidth 16 = handler.extractLsb' 16 16 :=
    shift_and_mask handler 16 16 (by decide)
  have hlow : (handler &&& 0xFFFF#32).setWidth 16 = handler.extractLsb' 0 16 :=
    and_mask handler 16 (by decide)
  unfold idtSetGate
  rw [Function.update_self]
  unfold IdtEntry.descriptor
  simp only [hhigh, hlow, BitVec.getLsbD_append, BitVec.getLsbD_extractLsb']
  grind

/-- **A gate is read as it was set**: the address and the selector whole, and the bits of the type byte. -/
theorem ofDescriptor_idtSetGate (vector : U8) (handler : U32) (selector : BitVec 16) (typeAttr : U8)
    (idt : U8 → IdtEntry) :
    Gate.ofDescriptor (idtSetGate vector handler selector typeAttr idt vector).descriptor =
      { offset := handler, selector := selector, present := typeAttr.getLsbD 7,
        dpl := typeAttr.extractLsb' 5 2, kind := typeAttr.extractLsb' 0 5 } := by
  have hbit := getLsbD_idtSetGate vector handler selector typeAttr idt
  generalize (idtSetGate vector handler selector typeAttr idt vector).descriptor = d at hbit
  unfold Gate.ofDescriptor
  congr 1
  case e_offset =>
    refine BitVec.eq_of_getLsbD_eq fun i hi => ?_
    simp only [BitVec.getLsbD_append, BitVec.getLsbD_extractLsb']
    grind
  case e_present => exact hbit _ (by decide)
  all_goals
    refine BitVec.eq_of_getLsbD_eq fun i hi => ?_
    simp only [BitVec.getLsbD_extractLsb']
    grind

/-! ### What the initialisation leaves -/

/-- What the processor finds once `gdt_init`, `idt_init` and `tss_init` have run. -/
def bootTables (address : Stub → U32) (stackTop gTss : U32) (gdt : ℕ → GdtEntry) : Tables :=
  let (tss, _, gdt) := (tssInit stackTop gTss (gdtInit gdt)).get (by rw [tssInit_eq]; rfl)
  { segment := lookupSegment gdtrLimit fun i => (gdt i).descriptor
    gate := fun vector => .ofDescriptor (idtInit address vector).descriptor
    ss0 := tss.ss0.setWidth 16
    esp0 := tss.esp0 }

/-- **The tables the processor has loaded**, entry by entry: the flat segments, the busy TSS and the gates. -/
theorem bootTables_eq (address : Stub → U32) (stackTop gTss : U32) (gdt : ℕ → GdtEntry) :
    bootTables address stackTop gTss gdt =
      { segment := lookupSegment gdtrLimit fun i =>
          (gdtSetEntry 5 gTss (sizeofTss - 1#32) 0x8B#8 0x00#8 (gdtInit gdt) i).descriptor
        gate := fun vector => .ofDescriptor (idtInit address vector).descriptor
        ss0 := kernelDataSel
        esp0 := stackTop } := by
  unfold bootTables
  simp only [tssInit_eq, Option.get_some]
  rfl

/-- The entry that a list of stubs leaves for a vector that none of them is for. -/
theorem foldl_idtSetGate_of_ne {address : Stub → U32} {stubs : List Stub} {v : U8}
    (h : ∀ stub ∈ stubs, stub.vector ≠ v) (idt : U8 → IdtEntry) :
    stubs.foldl (fun idt stub => idtSetGate stub.vector (address stub) kernelCodeSel intGate idt) idt v =
      idt v := by
  induction stubs generalizing idt with
  | nil => rfl
  | cons stub stubs ih =>
    obtain ⟨hne, hrest⟩ := List.forall_mem_cons.mp h
    rw [List.foldl_cons, ih hrest]
    exact Function.update_of_ne hne.symm ..

/-- No two stubs have the same vector. -/
theorem vector_injective : Function.Injective Stub.vector := by
  have hall : ∀ v : Fin 32, ∀ n : Fin 16, (Stub.isr v).vector ≠ (Stub.irq n).vector := by decide
  intro s t h
  cases s with
  | isr v =>
    cases t with
    | isr w => exact congrArg Stub.isr ((by decide : ∀ v w : Fin 32,
        (Stub.isr v).vector = (Stub.isr w).vector → v = w) v w h)
    | irq n => exact absurd h (hall v n)
  | irq n =>
    cases t with
    | isr v => exact absurd h.symm (hall v n)
    | irq m => exact congrArg Stub.irq ((by decide : ∀ n m : Fin 16,
        (Stub.irq n).vector = (Stub.irq m).vector → n = m) n m h)

/-- `idt_init` installs every stub. -/
theorem mem_installed (stub : Stub) : stub ∈ installed := by
  cases stub with
  | isr v => exact List.mem_append_left _ (List.mem_map_of_mem (List.mem_finRange v))
  | irq n => exact List.mem_append_right _ (List.mem_map_of_mem (List.mem_finRange n))

/-- Each vector that has a stub leads to it. -/
theorem idtInit_stub (address : Stub → U32) (stub : Stub) :
    Gate.ofDescriptor (idtInit address stub.vector).descriptor =
      ⟨address stub, kernelCodeSel, true, 0#2, 0x0E#5⟩ := by
  obtain ⟨before, after, hsplit⟩ := List.append_of_mem (mem_installed stub)
  have hnodup : installed.Nodup := by decide
  rw [hsplit] at hnodup
  -- no stub that is installed later is for the same vector
  have hlater : ∀ stub' ∈ after, stub'.vector ≠ stub.vector := by
    intro stub' hmem heq
    obtain rfl := vector_injective heq
    exact (List.nodup_cons.mp (List.nodup_append.mp hnodup).2.1).1 hmem
  unfold idtInit
  rw [hsplit, List.foldl_append, List.foldl_cons, foldl_idtSetGate_of_ne hlater, ofDescriptor_idtSetGate]
  rfl

/-- The other vectors have no gate. -/
theorem idtInit_other (address : Stub → U32) {v : U8} (hv : ∀ stub : Stub, stub.vector ≠ v) :
    Gate.ofDescriptor (idtInit address v).descriptor = ⟨0#32, 0#16, false, 0#2, 0#5⟩ := by
  unfold idtInit
  rw [foldl_idtSetGate_of_ne fun stub _ => hv stub]
  rfl

/-- A segment over the whole address space. -/
def flatSegment (dpl : BitVec 2) (executable : Bool) : Segment :=
  { base := 0#32, limit := 0xFFFFF#20, present := true, dpl := dpl, memory := true, executable := executable,
    conforming := false, accessible := true, flags := 0xC#4 }

/-- The segments by their index: code and data of the kernel, code and data of the user, and the task state
segment. -/
def bootSegment (gTss : U32) : ℕ → Option Segment
  | 1 => some (flatSegment 0#2 true)
  | 2 => some (flatSegment 0#2 false)
  | 3 => some (flatSegment 3#2 true)
  | 4 => some (flatSegment 3#2 false)
  | 5 => some { taskSegment gTss with accessible := true }
  | _ => none

/-- An entry that is set again later is not seen. -/
theorem gdtSetEntry_of_ne {idx i : ℕ} (h : i ≠ idx) (base limit : U32) (access flags : U8)
    (gdt : ℕ → GdtEntry) : gdtSetEntry idx base limit access flags gdt i = gdt i :=
  Function.update_of_ne h ..

/-- The segments that the processor finds. -/
theorem bootTables_segment (address : Stub → U32) (stackTop gTss : U32) (gdt : ℕ → GdtEntry)
    (selector : BitVec 16) : (bootTables address stackTop gTss gdt).segment selector =
      if selector.getLsbD 2 then none else bootSegment gTss (selector.extractLsb' 3 13).toNat := by
  rw [bootTables_eq]
  unfold lookupSegment
  dsimp only
  by_cases hlocal : selector.getLsbD 2
  · rw [if_pos (.inl hlocal), if_pos hlocal]
  rw [if_neg hlocal]
  generalize (selector.extractLsb' 3 13).toNat = i
  by_cases hout : i = 0 ∨ gdtrLimit.toNat < 8 * i + 7
  · rw [if_pos (.inr hout)]
    unfold bootSegment
    split <;> first | rfl | exact absurd hout (by decide)
  rw [if_neg (by tauto)]
  have hi : i = 1 ∨ i = 2 ∨ i = 3 ∨ i = 4 ∨ i = 5 := by
    rw [show gdtrLimit.toNat = 47 from rfl] at hout
    omega
  unfold gdtInit
  rcases hi with rfl | rfl | rfl | rfl | rfl
  · rw [gdtSetEntry_of_ne (by decide), gdtSetEntry_of_ne (by decide), gdtSetEntry_of_ne (by decide),
      gdtSetEntry_of_ne (by decide), gdtSetEntry_of_ne (by decide), ofDescriptor_gdtSetEntry]
    rfl
  · rw [gdtSetEntry_of_ne (by decide), gdtSetEntry_of_ne (by decide), gdtSetEntry_of_ne (by decide),
      gdtSetEntry_of_ne (by decide), ofDescriptor_gdtSetEntry]
    rfl
  · rw [gdtSetEntry_of_ne (by decide), gdtSetEntry_of_ne (by decide), gdtSetEntry_of_ne (by decide),
      ofDescriptor_gdtSetEntry]
    rfl
  · rw [gdtSetEntry_of_ne (by decide), gdtSetEntry_of_ne (by decide), ofDescriptor_gdtSetEntry]
    rfl
  · rw [ofDescriptor_gdtSetEntry]
    rfl

/-- A selector of a segment, with the privilege level it asks for. -/
theorem bootTables_selector (address : Stub → U32) (stackTop gTss : U32) (gdt : ℕ → GdtEntry) :
    let T := bootTables address stackTop gTss gdt
    T.segment kernelCodeSel = some (flatSegment 0#2 true) ∧
      T.segment kernelDataSel = some (flatSegment 0#2 false) ∧
      T.segment userCodeSel = some (flatSegment 3#2 true) ∧
      T.segment userDataSel = some (flatSegment 3#2 false) := by
  refine ⟨?_, ?_, ?_, ?_⟩
  all_goals
    rw [bootTables_segment]
    rfl

/-- **Packing loses nothing**: whatever base, limit, access byte and flags `gdt_set_entry` is given, and
whatever address, selector and type `idt_set_gate` is given, the processor reads them back from the entry, the
limit up to its twenty bits; the other entries of the table are not touched. -/
theorem descriptors_read_back :
    (∀ (gdt : ℕ → GdtEntry) (idx : ℕ) (base limit : U32) (access flags : U8),
      Segment.ofDescriptor (gdtSetEntry idx base limit access flags gdt idx).descriptor =
        { base := base, limit := limit.setWidth 20, present := access.getLsbD 7, dpl := access.extractLsb' 5 2,
          memory := access.getLsbD 4, executable := access.getLsbD 3, conforming := access.getLsbD 2,
          accessible := access.getLsbD 1, flags := flags.extractLsb' 4 4 } ∧
      ∀ i, i ≠ idx → gdtSetEntry idx base limit access flags gdt i = gdt i) ∧
    ∀ (idt : U8 → IdtEntry) (vector : U8) (handler : U32) (selector : BitVec 16) (typeAttr : U8),
      Gate.ofDescriptor (idtSetGate vector handler selector typeAttr idt vector).descriptor =
        { offset := handler, selector := selector, present := typeAttr.getLsbD 7,
          dpl := typeAttr.extractLsb' 5 2, kind := typeAttr.extractLsb' 0 5 } ∧
      ∀ v, v ≠ vector → idtSetGate vector handler selector typeAttr idt v = idt v :=
  ⟨fun gdt idx base limit access flags => ⟨ofDescriptor_gdtSetEntry idx base limit access flags gdt,
      fun _ h => gdtSetEntry_of_ne h base limit access flags gdt⟩,
    fun idt vector handler selector typeAttr => ⟨ofDescriptor_idtSetGate vector handler selector typeAttr idt,
      fun _ h => Function.update_of_ne h ..⟩⟩

/-- The gates and the stack for entries from level 3. -/
theorem bootTables_gate (address : Stub → U32) (stackTop gTss : U32) (gdt : ℕ → GdtEntry) (v : U8) :
    (bootTables address stackTop gTss gdt).gate v = .ofDescriptor (idtInit address v).descriptor := by
  rw [bootTables_eq]

/-- For entries from level 3 the TSS names the boot stack, in the kernel's data segment. -/
theorem bootTables_stack (address : Stub → U32) (stackTop gTss : U32) (gdt : ℕ → GdtEntry) :
    (bootTables address stackTop gTss gdt).ss0 = kernelDataSel ∧
      (bootTables address stackTop gTss gdt).esp0 = stackTop := by
  rw [bootTables_eq]
  exact ⟨rfl, rfl⟩

/-- **What the processor finds after `gdt_init`, `idt_init` and `tss_init`**, wherever the linker put the
stubs, the stack and the task state segment and whatever the tables held: `ltr` takes the task state segment,
which it leaves busy; there are flat segments of levels 0 and 3 and that task state segment under their
selectors, for each of the 48 vectors with a stub an interrupt gate to that stub at level 0, no gate for any
other vector, and the boot stack for entries from level 3. -/
theorem bootTables_spec (address : Stub → U32) (stackTop gTss : U32) (gdt : ℕ → GdtEntry) :
    let T := bootTables address stackTop gTss gdt
    (∃ tss gdt', tssInit stackTop gTss (gdtInit gdt) = some (tss, taskSegment gTss, gdt') ∧
      IsAvailableTask (gdtSetTssEntry gTss (sizeofTss - 1#32) (gdtInit gdt) 5).descriptor ∧
      (gdt' 5).descriptor =
        markBusy (gdtSetTssEntry gTss (sizeofTss - 1#32) (gdtInit gdt) 5).descriptor) ∧
    (∀ selector : BitVec 16, T.segment selector =
      if selector.getLsbD 2 then none else bootSegment gTss (selector.extractLsb' 3 13).toNat) ∧
    (∀ stub, T.gate stub.vector = ⟨address stub, kernelCodeSel, true, 0#2, 0x0E#5⟩) ∧
    (∀ v, (∀ stub : Stub, stub.vector ≠ v) → (T.gate v).present = false) ∧
    T.ss0 = kernelDataSel ∧ T.esp0 = stackTop := by
  refine ⟨⟨_, _, tssInit_eq stackTop gTss (gdtInit gdt), isAvailableTask_gdtSetTssEntry gTss _ _, ?_⟩,
    bootTables_segment address stackTop gTss gdt, fun stub => ?_, fun v hv => ?_,
    bootTables_stack address stackTop gTss gdt⟩
  · rw [← descriptor_busy]
    unfold gdtSetTssEntry gdtSetEntry
    rw [Function.update_self, Function.update_self]
    dsimp only
    rw [show 0x89#8 ||| 0x02#8 = 0x8B#8 by decide]
  · rw [bootTables_gate]
    exact idtInit_stub address stub
  · rw [bootTables_gate]
    exact congrArg Gate.present (idtInit_other address hv)

end Microkernel.Arch
