import Microkernel.Lib.Bitmap

/-! # The interrupt controller 8259A

One controller with its registers and its initialisation sequence, and two of them in cascade, as they are
wired in a PC. Rotating priorities and the special mask mode are not modelled.

* **`Chip`, `Chip.writeCommand`, `Chip.writeData`** — the registers, and what a byte at either port does
  to them: the four initialisation words, the mask, and the end of an interrupt.
* **`Chip.raise`, `Chip.lower`, `Chip.acknowledge`** — a line that goes up or down, and the vector that
  the processor is given. A request that has gone meanwhile is answered with the last line.
* **`Pair`** — the second controller behind line 2 of the first.
-/

namespace Microkernel.I8259

/-- Where a controller is in its initialisation. -/
inductive Phase where
  | icw2 | icw3 | icw4 | ready
  deriving DecidableEq

/-- One controller: requests, requests in service and masked lines, with what the initialisation set. -/
structure Chip where
  phase : Phase
  single : Bool
  needsIcw4 : Bool
  base : BitVec 8
  cascade : BitVec 8
  mode : BitVec 8
  irr : BitVec 8
  isr : BitVec 8
  imr : BitVec 8

/-- A line as a mask. -/
def bit (n : ℕ) : BitVec 8 := 1#8 <<< n

/-- The line of highest priority. -/
def first (v : BitVec 8) : Option ℕ := (List.range 8).find? fun n => v.getLsbD n

/-- A write to the command port: the first initialisation word, or the end of an interrupt, which is that of
highest priority in service unless the command names one. -/
def Chip.writeCommand (v : BitVec 8) (c : Chip) : Chip :=
  if v.getLsbD 4 then
    { c with
      phase := .icw2, single := v.getLsbD 1, needsIcw4 := v.getLsbD 0, mode := 0#8
      irr := 0#8, isr := 0#8, imr := 0#8 }
  -- OCW3 only selects what is read
  else if v.getLsbD 3 then c
  -- OCW2: the end of the interrupt of highest priority, then that of a named line
  else if v.extractLsb' 5 3 = 1#3 then
    match first c.isr with
    | none => c
    | some n => { c with isr := c.isr &&& ~~~ bit n }
  else if v.extractLsb' 5 3 = 3#3 then { c with isr := c.isr &&& ~~~ bit (v.extractLsb' 0 3).toNat }
  else c

/-- A write to the data port: the next initialisation word, or the mask. -/
def Chip.writeData (v : BitVec 8) (c : Chip) : Chip :=
  let afterIcw3 := if c.needsIcw4 then Phase.icw4 else .ready
  match c.phase with
  | .icw2 => { c with base := v &&& 0xF8#8, phase := if c.single then afterIcw3 else .icw3 }
  | .icw3 => { c with cascade := v, phase := afterIcw3 }
  | .icw4 => { c with mode := v, phase := .ready }
  | .ready => { c with imr := v }

/-- A line is raised. -/
def Chip.raise (n : ℕ) (c : Chip) : Chip := { c with irr := c.irr ||| bit n }

/-- A line falls before its request was acknowledged. -/
def Chip.lower (n : ℕ) (c : Chip) : Chip := { c with irr := c.irr &&& ~~~ bit n }

/-- The line that the controller asks to be served, when it sees requests on the lines `also` besides its own:
the line is not masked and has priority over those in service. -/
def Chip.request (also : BitVec 8) (c : Chip) : Option ℕ :=
  (first ((c.irr ||| also) &&& ~~~ c.imr)).filter fun n => (first c.isr).all fun m => n < m

/-- The controller is acknowledged: its request goes into service, unless the mode ends it at once. Without a
request it answers with its last line. -/
def Chip.acknowledge (also : BitVec 8) (c : Chip) : Chip × ℕ :=
  match c.request also with
  | none => (c, 7)
  | some n =>
      ({ c with irr := c.irr &&& ~~~ bit n, isr := if c.mode.getLsbD 1 then c.isr else c.isr ||| bit n }, n)

/-- Two controllers. -/
structure Pair where
  master : Chip
  slave : Chip

/-- The request of the slave, as the master sees it. With a glitch the slave has taken it back by the time it
is acknowledged. -/
def Pair.cascaded (glitch : Bool) (p : Pair) : BitVec 8 :=
  if (p.slave.request 0#8).isSome ∨ glitch then p.master.cascade else 0#8

/-- The processor acknowledges: the controllers and the vector. The slave answers for the cascade line if it
has its number. -/
def Pair.acknowledge (glitch : Bool) (p : Pair) : Pair × Option (BitVec 8) :=
  let master := p.master.acknowledge (p.cascaded glitch)
  if (p.master.request (p.cascaded glitch)).isSome ∧ p.master.cascade.getLsbD master.2 then
    let slave := p.slave.acknowledge 0#8
    (⟨master.1, slave.1⟩,
      if (p.slave.cascade.extractLsb' 0 3).toNat = master.2 then some (p.slave.base + BitVec.ofNat 8 slave.2)
      else none)
  else (⟨master.1, p.slave⟩, some (p.master.base + BitVec.ofNat 8 master.2))

/-! ### Lines -/

section
variable {v : BitVec 8} {n m : ℕ}

/-- The mask of line `n` has its own bit set and no other. -/
theorem getLsbD_bit (hn : n < 8) : (bit n).getLsbD m = decide (m = n) := Bitmap.getLsbD_mask hn

/-- The first line is a line, and none is before it. -/
theorem first_eq_some : first v = some n ↔ v.getLsbD n = true ∧ ∀ m < n, v.getLsbD m = false := by
  have hlt : v.getLsbD n = true → n < 8 := BitVec.lt_of_getLsbD
  unfold first
  rw [List.find?_range_eq_some]
  constructor
  · rintro ⟨h, -, hbefore⟩
    exact ⟨h, fun m hm => by simpa using hbefore m hm⟩
  · rintro ⟨h, hbefore⟩
    exact ⟨h, by simpa using hlt h, fun m hm => by simpa using hbefore m hm⟩

/-- No line is first exactly when no line is up. -/
theorem first_eq_none : first v = none ↔ v = 0#8 := by
  unfold first
  rw [List.find?_eq_none]
  constructor
  · intro h
    refine BitVec.eq_of_getLsbD_eq fun i hi => ?_
    simpa using h i (List.mem_range.mpr hi)
  · rintro rfl n -
    simp

end

end Microkernel.I8259
