import Mathlib.Data.List.Find
import Microkernel.Arch.Pic

/-! # Sixteen lines

What drivers want of `pic.c` and `irq.c`, with no controllers, ports, vectors and ends of interrupts in it:
sixteen lines with their requests, masks and handlers, served one at a time in a fixed order. The system of
`pic.c` and `irq.c` refines it.

* **`Lines`** — the state of this machine; a step has one case for each thing that drivers, devices and
  the processor do.
* **`Shows`** — the relation to the two controllers behind their ports: who is requested, who is masked,
  and that the line in service is the one whose handler runs.
* **`irq_refines_lines`** — from `pic_init` on every sequence of events gives the same answers on both
  levels.
* **`request_waits`** — consequently a request on an open line, with the cascade line 2 open for the lines
  of the second controller, is overtaken by earlier lines only.
-/

namespace Microkernel.Arch

open Function (update)
open I8259

section
variable {H : Type*}

/-- The lines, and the one whose handler runs. -/
structure Lines (H : Type*) where
  pending : ℕ → Bool
  enabled : ℕ → Bool
  handlers : ℕ → Option H
  serving : Option ℕ

/-- The line that the code means by a number. -/
def lineOf (irq : U8) : ℕ := if irq < 8#8 then irq.toNat else 8 + irq.toNat % 8

/-- The lines of the second controller. -/
def secondLines : List ℕ := [8, 9, 10, 11, 12, 13, 14, 15]

/-- The first of some lines that has a request and is enabled. -/
def Lines.firstOf (l : Lines H) (ns : List ℕ) : Option ℕ := ns.find? fun n => l.pending n && l.enabled n

/-- The line to serve next, and whether it has a request: if none has, the last line of a controller is
served. -/
def Lines.next (glitch : Bool) (l : Lines H) : ℕ × Bool :=
  match l.firstOf [0, 1] with
  | some n => (n, true)
  | none =>
    if l.enabled 2 ∧ ((l.firstOf secondLines).isSome ∨ glitch) then
      match l.firstOf secondLines with
      | some n => (n, true)
      | none => (15, false)
    else
      match l.firstOf [3, 4, 5, 6, 7] with
      | some n => (n, true)
      | none => (7, false)

/-- The next event. -/
def Lines.step (l : Lines H) : IrqEvent H → Lines H × IrqAnswer H
  | .raise line => ({ l with pending := update l.pending line.1.1 true }, .quiet)
  | .lower line => ({ l with pending := update l.pending line.1.1 false }, .quiet)
  | .setMask irq => ({ l with enabled := update l.enabled (lineOf irq) false }, .quiet)
  | .clearMask irq => ({ l with enabled := update l.enabled (lineOf irq) true }, .quiet)
  | .install irq handler =>
      (if irq.toNat < 16 then { l with handlers := update l.handlers irq.toNat handler } else l, .quiet)
  | .interrupt glitch =>
      if l.serving.isSome then (l, .quiet)
      else
        let (n, requested) := l.next glitch
        ({ l with
          pending := if requested then update l.pending n false else l.pending
          serving := some n }, .served n (l.handlers n))
  | .handlerReturns => ({ l with serving := none }, .quiet)

/-- The system, at first without requests and with all lines masked. -/
def linesMachine : Machine (Lines H) (IrqEvent H) (IrqAnswer H) where
  init := ⟨fun _ => false, fun _ => false, fun _ => none, none⟩
  step l e := some (l.step e)

/-! ### The two levels -/

/-- A controller that shows eight of the lines. -/
structure ShowsLines (base cascade : U8) (offset : ℕ) (l : Lines H) (c : Chip) : Prop where
  ready : c.phase = .ready
  base : c.base = base
  cascade : c.cascade = cascade
  mode : c.mode.getLsbD 1 = false
  irr : ∀ i < 8, c.irr.getLsbD i = l.pending (offset + i)
  imr : ∀ i < 8, c.imr.getLsbD i = !l.enabled (offset + i)

/-- At most one request is in service. -/
def AtMostOne (v : U8) : Prop := v = 0#8 ∨ ∃ i < 8, v = bit i

/-- The system shows the lines. Only the line whose handler runs is in service, and for the second controller
only if it is one of its lines. -/
structure Shows (s : IrqState H) (l : Lines H) : Prop where
  master : ShowsLines 0x20#8 0x04#8 0 l s.pair.master
  slave : ShowsLines 0x28#8 0x02#8 8 l s.pair.slave
  noDevice : l.pending 2 = false
  handlers : s.handlers = l.handlers
  serving : s.serving.map BitVec.toNat = l.serving
  masterService : AtMostOne s.pair.master.isr
  slaveService : AtMostOne s.pair.slave.isr
  masterIdle : s.serving = none → s.pair.master.isr = 0#8
  slaveIdle : (∀ irq ∈ s.serving, irq < 8#8) → s.pair.slave.isr = 0#8

/-! ### One controller -/

section
variable {base cascade : U8} {offset : ℕ} {l m : Lines H} {c : Chip}

/-- The controller does not depend on other lines. -/
theorem ShowsLines.congr (h : ShowsLines base cascade offset l c)
    (hpending : ∀ i < 8, m.pending (offset + i) = l.pending (offset + i))
    (henabled : ∀ i < 8, m.enabled (offset + i) = l.enabled (offset + i)) :
    ShowsLines base cascade offset m c :=
  ⟨h.ready, h.base, h.cascade, h.mode, fun i hi => (h.irr i hi).trans (hpending i hi).symm,
    fun i hi => (h.imr i hi).trans (congrArg _ (henabled i hi).symm)⟩

/-- What is in service is not shown. -/
theorem ShowsLines.isr (h : ShowsLines base cascade offset l c) (v : U8) :
    ShowsLines base cascade offset l { c with isr := v } :=
  ⟨h.ready, h.base, h.cascade, h.mode, h.irr, h.imr⟩

/-- A line of the controller is raised. -/
theorem ShowsLines.raise (h : ShowsLines base cascade offset l c) {n : ℕ} (hn : n < 8)
    (hpending : m.pending = update l.pending (offset + n) true) (henabled : m.enabled = l.enabled) :
    ShowsLines base cascade offset m (c.raise n) := by
  refine ⟨h.ready, h.base, h.cascade, h.mode, fun i hi => ?_, henabled ▸ h.imr⟩
  unfold Chip.raise
  rw [BitVec.getLsbD_or, getLsbD_bit hn, h.irr i hi, hpending]
  by_cases hin : i = n
  · subst hin
    simp
  · simp [hin]

/-- A line of the controller is lowered. -/
theorem ShowsLines.lower (h : ShowsLines base cascade offset l c) {n : ℕ} (hn : n < 8)
    (hpending : m.pending = update l.pending (offset + n) false) (henabled : m.enabled = l.enabled) :
    ShowsLines base cascade offset m (c.lower n) := by
  refine ⟨h.ready, h.base, h.cascade, h.mode, fun i hi => ?_, henabled ▸ h.imr⟩
  unfold Chip.lower
  rw [BitVec.getLsbD_and, BitVec.getLsbD_not, getLsbD_bit hn, h.irr i hi, hpending]
  by_cases hin : i = n
  · subst hin
    simp
  · simp [hin, hi]

/-- The mask is written. -/
theorem ShowsLines.writeData (h : ShowsLines base cascade offset l c) {v : U8}
    (hpending : m.pending = l.pending) (hv : ∀ i < 8, v.getLsbD i = !m.enabled (offset + i)) :
    ShowsLines base cascade offset m (c.writeData v) := by
  have heq : c.writeData v = { c with imr := v } := by
    unfold Chip.writeData
    rw [h.ready]
  rw [heq]
  exact ⟨h.ready, h.base, h.cascade, h.mode, hpending ▸ h.irr, hv⟩

/-- The end of an interrupt. -/
theorem writeCommand_eoi (h : AtMostOne c.isr) : c.writeCommand 0x20#8 = { c with isr := 0#8 } := by
  unfold Chip.writeCommand
  rw [if_neg (by decide), if_neg (by decide), if_pos (by decide)]
  rcases h with hzero | ⟨i, hi, hbit⟩
  · rw [first_eq_none.mpr hzero]
    exact congrArg (fun v => { c with isr := v }) hzero
  · have hfirst : first c.isr = some i := by
      rw [hbit, first_eq_some]
      refine ⟨by simp [getLsbD_bit hi], fun m hm => ?_⟩
      simp [getLsbD_bit hi, hm.ne]
    rw [hfirst, hbit]
    exact congrArg (fun v => { c with isr := v }) (BitVec.and_not_self (bit i))

/-- With nothing in service a controller asks for its first request that is not masked. -/
theorem request_of_idle (h : c.isr = 0#8) (also : U8) :
    c.request also = (List.range 8).find? fun i =>
      (c.irr.getLsbD i || also.getLsbD i) && !c.imr.getLsbD i := by
  unfold Chip.request
  rw [h, first_eq_none.mpr rfl]
  have hall : ∀ o : Option ℕ, (o.filter fun _ => true) = o := by
    rintro (_ | n) <;> rfl
  rw [show (fun n => (none : Option ℕ).all fun m => decide (n < m)) = fun _ => true from rfl, hall]
  unfold first
  refine List.find?_congr fun i hi => ?_
  have hlt : i < 8 := List.mem_range.mp hi
  simp [hlt]

/-- The request is acknowledged. -/
theorem acknowledge_some (hmode : c.mode.getLsbD 1 = false) {also : U8} {n : ℕ}
    (h : c.request also = some n) : c.acknowledge also = ({ c.lower n with isr := c.isr ||| bit n }, n) := by
  unfold Chip.acknowledge
  rw [h]
  simp only [hmode]
  rfl

/-- An acknowledgement without a request is spurious: it gives line 7 and changes nothing. -/
theorem acknowledge_none {also : U8} (h : c.request also = none) : c.acknowledge also = (c, 7) := by
  unfold Chip.acknowledge
  rw [h]

end

/-! ### The two controllers -/

/-- The first line of a controller with a request, in the numbers of the controller. -/
theorem firstOf_second (l : Lines H) :
    l.firstOf secondLines =
      ((List.range 8).find? fun i => l.pending (8 + i) && l.enabled (8 + i)).map (8 + ·) := by
  unfold Lines.firstOf
  rw [show secondLines = (List.range 8).map (8 + ·) by decide, List.find?_map]
  rfl

/-- What the second controller asks for. -/
theorem slave_request {l : Lines H} {c : Chip} {base cascade : U8} (h : ShowsLines base cascade 8 l c)
    (hidle : c.isr = 0#8) : (c.request 0#8).map (8 + ·) = l.firstOf secondLines := by
  rw [request_of_idle hidle, firstOf_second]
  congr 1
  refine List.find?_congr fun i hi => ?_
  have hlt : i < 8 := List.mem_range.mp hi
  simp [h.irr i hlt, h.imr i hlt]

/-- What the first controller asks for, with or without a request of the second. -/
theorem master_request {l : Lines H} {c : Chip} {base cascade : U8} (h : ShowsLines base cascade 0 l c)
    (hidle : c.isr = 0#8) (hnone : l.pending 2 = false) (asks : Bool) :
    c.request (if asks then 0x04#8 else 0#8) =
      match l.firstOf [0, 1] with
      | some n => some n
      | none => if l.enabled 2 ∧ asks then some 2 else l.firstOf [3, 4, 5, 6, 7] := by
  have hline : ∀ i ∈ List.range 8, ((c.irr.getLsbD i || (if asks then 0x04#8 else 0#8).getLsbD i) &&
      !c.imr.getLsbD i) = ((l.pending i || (decide (i = 2) && asks)) && l.enabled i) := by
    intro i hi
    have hlt : i < 8 := List.mem_range.mp hi
    have hbit : (if asks then 0x04#8 else 0#8 : U8).getLsbD i = (decide (i = 2) && asks) := by
      cases asks with
      | false => simp
      | true => exact (getLsbD_bit (n := 2) (by decide)).trans (Bool.and_true _).symm
    rw [hbit, h.irr i hlt, h.imr i hlt, Nat.zero_add, Bool.not_not]
  -- the cascade line apart, a line asks when it is pending and enabled
  have hother : ∀ ns : List ℕ, 2 ∉ ns → (ns.find? fun i =>
      (l.pending i || (decide (i = 2) && asks)) && l.enabled i) = l.firstOf ns := by
    intro ns hns
    refine List.find?_congr fun i hi => ?_
    have hne : i ≠ 2 := fun h => hns (h ▸ hi)
    simp [hne]
  rw [request_of_idle hidle, List.find?_congr hline,
    show List.range 8 = [0, 1] ++ [2] ++ [3, 4, 5, 6, 7] by decide, List.find?_append, List.find?_append,
    hother [0, 1] (by decide), hother [3, 4, 5, 6, 7] (by decide)]
  cases l.firstOf [0, 1] with
  | some n => rfl
  | none =>
    rw [Option.none_or, List.find?_singleton]
    by_cases hasks : l.enabled 2 ∧ asks
    · rw [if_pos hasks, if_pos (by simp [hnone, hasks.1, hasks.2]), Option.some_or]
    · rw [if_neg hasks, if_neg (by simpa [hnone, and_comm] using hasks), Option.none_or]

/-- The cascade line is line 2. -/
theorem cascade_line (n : ℕ) : (0x04#8 : U8).getLsbD n = decide (n = 2) := getLsbD_bit (n := 2) (by decide)

/-- A request that goes into service when nothing else is. -/
theorem ShowsLines.serve {base cascade : U8} {offset : ℕ} {l m : Lines H} {c : Chip}
    (h : ShowsLines base cascade offset l c) {n : ℕ} (hn : n < 8)
    (hpending : m.pending = update l.pending (offset + n) false) (henabled : m.enabled = l.enabled)
    (hidle : c.isr = 0#8) :
    ShowsLines base cascade offset m { c.lower n with isr := c.isr ||| bit n } ∧
      AtMostOne (c.isr ||| bit n) :=
  ⟨(h.lower hn hpending henabled).isr _, .inr ⟨n, hn, by rw [hidle, BitVec.zero_or]⟩⟩

/-- The lines after the next one was acknowledged. -/
def Lines.taken (glitch : Bool) (l : Lines H) : Lines H :=
  { l with
    pending := if (l.next glitch).2 then update l.pending (l.next glitch).1 false else l.pending
    serving := some (l.next glitch).1 }

/-- What an acknowledgement does: it gives the vector of the next line, and its request is taken. -/
structure Acknowledged (glitch : Bool) (l : Lines H) (p p' : Pair) (vector : Option U8) : Prop where
  bound : (l.next glitch).1 < 16
  vector : vector = some (0x20#8 + BitVec.ofNat 8 (l.next glitch).1)
  master : ShowsLines 0x20#8 0x04#8 0 (l.taken glitch) p'.master
  slave : ShowsLines 0x28#8 0x02#8 8 (l.taken glitch) p'.slave
  masterService : AtMostOne p'.master.isr
  slaveService : AtMostOne p'.slave.isr
  slaveIdle : (l.next glitch).1 < 8 → p'.slave.isr = 0#8

section
variable {l : Lines H} {p : Pair} {glitch : Bool}

/-- A line of the first controller is next. -/
theorem acknowledged_first (hmaster : ShowsLines 0x20#8 0x04#8 0 l p.master)
    (hslave : ShowsLines 0x28#8 0x02#8 8 l p.slave) (hidle : p.master.isr = 0#8 ∧ p.slave.isr = 0#8)
    {n : ℕ} (hn : n < 8) (hne : n ≠ 2) (hnext : l.next glitch = (n, true))
    (hrequest : p.master.request (p.cascaded glitch) = some n) :
    Acknowledged glitch l p (p.acknowledge glitch).1 (p.acknowledge glitch).2 := by
  have hack : p.acknowledge glitch =
      (⟨{ p.master.lower n with isr := p.master.isr ||| bit n }, p.slave⟩,
        some (0x20#8 + BitVec.ofNat 8 n)) := by
    unfold Pair.acknowledge
    simp only [acknowledge_some hmaster.mode hrequest]
    rw [if_neg (by simp [hmaster.cascade, cascade_line, hne])]
    rw [hmaster.base]
  have htaken : l.taken glitch = { l with pending := update l.pending n false, serving := some n } := by
    unfold Lines.taken
    rw [hnext]
    rfl
  have hserve := hmaster.serve (m := l.taken glitch) hn (by rw [Nat.zero_add, htaken]) rfl hidle.1
  rw [hack]
  refine ⟨?_, ?_, hserve.1, ?_, hserve.2, .inl hidle.2, fun _ => hidle.2⟩
  · rw [hnext]
    exact hn.trans (by decide)
  · rw [hnext]
  · rw [htaken]
    exact hslave.congr (fun i hi => Function.update_of_ne (by omega) ..) fun _ _ => rfl

/-- No line is asked for: the first controller answers for its last one. -/
theorem acknowledged_none (hmaster : ShowsLines 0x20#8 0x04#8 0 l p.master)
    (hslave : ShowsLines 0x28#8 0x02#8 8 l p.slave) (hidle : p.master.isr = 0#8 ∧ p.slave.isr = 0#8)
    (hnext : l.next glitch = (7, false)) (hrequest : p.master.request (p.cascaded glitch) = none) :
    Acknowledged glitch l p (p.acknowledge glitch).1 (p.acknowledge glitch).2 := by
  have hack : p.acknowledge glitch = (p, some 0x27#8) := by
    unfold Pair.acknowledge
    simp only [acknowledge_none hrequest]
    rw [if_neg (by simp [hrequest])]
    rw [hmaster.base]
    rfl
  have htaken : l.taken glitch = { l with serving := some 7 } := by
    unfold Lines.taken
    rw [hnext]
    rfl
  rw [hack]
  refine ⟨?_, ?_, ?_, ?_, .inl hidle.1, .inl hidle.2, fun _ => hidle.2⟩
  · rw [hnext]
    decide
  · rw [hnext]
    rfl
  · rw [htaken]
    exact hmaster.congr (fun _ _ => rfl) fun _ _ => rfl
  · rw [htaken]
    exact hslave.congr (fun _ _ => rfl) fun _ _ => rfl

/-- The cascade line is next: the second controller answers, for a line of its own or for its last one. -/
theorem acknowledged_second (hmaster : ShowsLines 0x20#8 0x04#8 0 l p.master)
    (hslave : ShowsLines 0x28#8 0x02#8 8 l p.slave) (hidle : p.master.isr = 0#8 ∧ p.slave.isr = 0#8)
    (hnone : l.pending 2 = false) (hrequest : p.master.request (p.cascaded glitch) = some 2)
    (hnext : l.next glitch = match l.firstOf secondLines with
      | some n => (n, true)
      | none => (15, false)) :
    Acknowledged glitch l p (p.acknowledge glitch).1 (p.acknowledge glitch).2 := by
  have hack : p.acknowledge glitch =
      (⟨{ p.master.lower 2 with isr := p.master.isr ||| bit 2 }, (p.slave.acknowledge 0#8).1⟩,
        some (0x28#8 + BitVec.ofNat 8 (p.slave.acknowledge 0#8).2)) := by
    unfold Pair.acknowledge
    simp only [acknowledge_some hmaster.mode hrequest]
    rw [if_pos ⟨by simp [hrequest], by simp [hmaster.cascade]⟩]
    rw [hslave.cascade, hslave.base]
    rfl
  -- nothing is pending on line 2, so that taking it changes nothing
  have hsame : update l.pending 2 false = l.pending := by
    rw [← hnone, Function.update_eq_self]
  have hserve := hmaster.serve (m := l) (n := 2) (by decide) hsame.symm rfl hidle.1
  have hsecond := slave_request hslave hidle.2
  rw [hack]
  cases hm : p.slave.request 0#8 with
  | some m =>
    rw [hm, Option.map_some] at hsecond
    rw [← hsecond] at hnext
    have hm8 : m < 8 := by
      rw [request_of_idle hidle.2] at hm
      exact List.mem_range.mp (List.mem_of_find?_eq_some hm)
    have htaken : l.taken glitch = { l with pending := update l.pending (8 + m) false, serving := some (8 + m) } := by
      unfold Lines.taken
      rw [hnext]
      rfl
    have hserve' := hslave.serve (m := l.taken glitch) hm8 (by rw [htaken]) (by rw [htaken]) hidle.2
    -- its first line, unless it has taken the request back
    rw [acknowledge_some hslave.mode hm]
    refine ⟨?_, ?_, ?_, hserve'.1, hserve.2, hserve'.2, fun h => ?_⟩
    · rw [hnext]
      exact Nat.add_lt_add_left hm8 8
    · rw [hnext]
      simp only [BitVec.ofNat_add, ← BitVec.add_assoc]
      rfl
    · rw [htaken]
      exact hserve.1.congr (fun i hi => Function.update_of_ne (by omega) ..) fun _ _ => rfl
    · rw [hnext] at h
      exact absurd h (by simp)
  | none =>
    rw [hm, Option.map_none] at hsecond
    rw [← hsecond] at hnext
    have htaken : l.taken glitch = { l with serving := some 15 } := by
      unfold Lines.taken
      rw [hnext]
      rfl
    -- a glitch: it answers for its last line
    rw [acknowledge_none hm]
    refine ⟨?_, ?_, ?_, ?_, hserve.2, .inl hidle.2, fun _ => hidle.2⟩
    · rw [hnext]
      decide
    · rw [hnext]
      rfl
    · rw [htaken]
      exact hserve.1.congr (fun _ _ => rfl) fun _ _ => rfl
    · rw [htaken]
      exact hslave.congr (fun _ _ => rfl) fun _ _ => rfl

/-- **An acknowledgement serves the next line.** -/
theorem acknowledged (glitch : Bool) (hmaster : ShowsLines 0x20#8 0x04#8 0 l p.master)
    (hslave : ShowsLines 0x28#8 0x02#8 8 l p.slave) (hidle : p.master.isr = 0#8 ∧ p.slave.isr = 0#8)
    (hnone : l.pending 2 = false) :
    Acknowledged glitch l p (p.acknowledge glitch).1 (p.acknowledge glitch).2 := by
  have hasks : p.cascaded glitch =
      if (l.firstOf secondLines).isSome || glitch then 0x04#8 else 0#8 := by
    unfold Pair.cascaded
    rw [hmaster.cascade, ← slave_request hslave hidle.2, Option.isSome_map]
    simp only [Bool.or_eq_true]
  have hrequest := master_request hmaster hidle.1 hnone ((l.firstOf secondLines).isSome || glitch)
  rw [← hasks] at hrequest
  have hbound : ∀ {ns : List ℕ} {n : ℕ}, (∀ i ∈ ns, i < 8 ∧ i ≠ 2) → l.firstOf ns = some n → n < 8 ∧ n ≠ 2 :=
    fun hns h => hns _ (List.mem_of_find?_eq_some h)
  cases h₁ : l.firstOf [0, 1] with
  | some n =>
    -- lines 0 and 1 come before the cascade
    obtain ⟨hn, hne⟩ := hbound (by decide) h₁
    refine acknowledged_first hmaster hslave hidle hn hne ?_ (by rw [hrequest, h₁])
    unfold Lines.next
    rw [h₁]
  | none =>
    rw [h₁] at hrequest
    dsimp only at hrequest
    simp only [Bool.or_eq_true] at hrequest
    by_cases h₂ : l.enabled 2 ∧ ((l.firstOf secondLines).isSome ∨ glitch)
    · -- then the lines of the second controller
      refine acknowledged_second hmaster hslave hidle hnone (by rw [hrequest, if_pos h₂]) ?_
      unfold Lines.next
      rw [h₁]
      exact if_pos h₂
    rw [if_neg h₂] at hrequest
    cases h₃ : l.firstOf [3, 4, 5, 6, 7] with
    | some n =>
      -- then the other lines of the first one
      obtain ⟨hn, hne⟩ := hbound (by decide) h₃
      refine acknowledged_first hmaster hslave hidle hn hne ?_ (by rw [hrequest, h₃])
      unfold Lines.next
      rw [h₁]
      dsimp only
      rw [if_neg h₂, h₃]
    | none =>
      refine acknowledged_none hmaster hslave hidle ?_ (by rw [hrequest, h₃])
      unfold Lines.next
      rw [h₁]
      dsimp only
      rw [if_neg h₂, h₃]

end

/-! ### The refinement -/

/-- The vector of a line leads to its stub, and its handler is called with the number of the line. -/
theorem irqHandlerC_vector (handlers : ℕ → Option H) (n : Fin 16) :
    (installed.find? fun stub => stub.vector = 0x20#8 + BitVec.ofNat 8 n) = some (.irq n) ∧
      irqHandlerC handlers ((0x20#8 + BitVec.ofNat 8 n).setWidth 32) =
        .serve (BitVec.ofNat 8 n) (handlers n) := by
  constructor
  · exact (by decide : ∀ n : Fin 16, (installed.find? fun stub =>
      stub.vector = 0x20#8 + BitVec.ofNat 8 n) = some (Stub.irq n)) n
  · obtain ⟨hrange, hirq, hlt, hnat⟩ := (by decide : ∀ n : Fin 16,
      (¬ ((0x20#8 + BitVec.ofNat 8 n).setWidth 32 < 0x20#32 ∨
        0x2F#32 < (0x20#8 + BitVec.ofNat 8 n).setWidth 32)) ∧
      ((0x20#8 + BitVec.ofNat 8 n).setWidth 32 - 0x20#32).setWidth 8 = BitVec.ofNat 8 n ∧
      (BitVec.ofNat 8 n.1 : U8) < 16#8 ∧ (BitVec.ofNat 8 n.1 : U8).toNat = n) n
    unfold irqHandlerC
    rw [if_neg hrange]
    simp only [hirq, if_pos hlt, hnat]

/-- What `pic_init` leaves, whatever the controllers were. -/
theorem shows_picInit (p : Pair) : Shows (irqMachine (H := H) p).init linesMachine.init := by
  have hmask : ∀ i < 8, (0xFF#8 : U8).getLsbD i = true := by decide
  -- the words replace whatever the controllers held
  have hpair : picInit p = ⟨⟨.ready, false, true, 0x20#8, 0x04#8, 0x01#8, 0#8, 0#8, 0xFF#8⟩,
    ⟨.ready, false, true, 0x28#8, 0x02#8, 0x01#8, 0#8, 0#8, 0xFF#8⟩⟩ := rfl
  have hmode : (0x01#8 : U8).getLsbD 1 = false := by decide
  unfold irqMachine
  rw [hpair]
  exact ⟨⟨rfl, rfl, rfl, hmode, fun i _ => BitVec.getLsbD_zero, hmask⟩,
    ⟨rfl, rfl, rfl, hmode, fun i _ => BitVec.getLsbD_zero, hmask⟩, rfl, rfl, rfl, .inl rfl, .inl rfl,
    fun _ => rfl, fun _ => rfl⟩

section
variable {s : IrqState H} {l : Lines H}

/-- A device raises or lowers its line. -/
theorem Shows.onLine (h : Shows s l) (line : DeviceLine) (b : Bool) :
    Shows { s with pair := onLine line (if b then Chip.raise else Chip.lower) s.pair }
      { l with pending := update l.pending line.1.1 b } := by
  have hn : line.1.1 < 16 := line.1.2
  have hne : line.1.1 ≠ 2 := fun h => line.2 (Fin.ext h)
  unfold Arch.onLine
  generalize line.1.1 = n at hn hne
  have hnoDevice : update l.pending n b 2 = false := by
    rw [Function.update_of_ne hne.symm]
    exact h.noDevice
  by_cases hn8 : n < 8
  · rw [if_pos hn8]
    refine ⟨?_, h.slave.congr (fun i hi => Function.update_of_ne (by omega) ..) fun _ _ => rfl,
      hnoDevice, h.handlers, h.serving, ?_, h.slaveService, fun hidle => ?_, h.slaveIdle⟩
    · cases b with
      | false => exact h.master.lower hn8 (by rw [Nat.zero_add]) rfl
      | true => exact h.master.raise hn8 (by rw [Nat.zero_add]) rfl
    · cases b with
      | false => exact h.masterService
      | true => exact h.masterService
    · cases b with
      | false => exact h.masterIdle hidle
      | true => exact h.masterIdle hidle
  · rw [if_neg hn8]
    have hsplit : 8 + (n - 8) = n := by omega
    refine ⟨h.master.congr (fun i hi => Function.update_of_ne (by omega) ..) fun _ _ => rfl, ?_,
      hnoDevice, h.handlers, h.serving, h.masterService, ?_, h.masterIdle, fun hidle => ?_⟩
    · cases b with
      | false => exact h.slave.lower (by omega) (by rw [hsplit]) rfl
      | true => exact h.slave.raise (by omega) (by rw [hsplit]) rfl
    · cases b with
      | false => exact h.slaveService
      | true => exact h.slaveService
    · cases b with
      | false => exact h.slaveIdle hidle
      | true => exact h.slaveIdle hidle

/-- The bit of a line. -/
theorem picLine_eq (irq : U8) : picLine irq = bit (irq.toNat % 8) := by
  have hand : (irq &&& 7#8).toNat = irq.toNat % 8 := by
    rw [BitVec.toNat_and]
    exact Nat.and_two_pow_sub_one_eq_mod irq.toNat 3
  unfold picLine
  rw [hand]
  have hall : ∀ n < 8, (1#32 <<< n).setWidth 8 = bit n := by decide
  exact hall _ (Nat.mod_lt _ (by decide))

/-- A driver masks a line, or opens it. -/
theorem Shows.mask (h : Shows s l) (irq : U8) (b : Bool) :
    Shows { s with pair := if b then picClearMask irq s.pair else picSetMask irq s.pair }
      { l with enabled := update l.enabled (lineOf irq) b } := by
  have hn : irq.toNat % 8 < 8 := Nat.mod_lt _ (by decide)
  -- the written mask, for either controller
  have hbits : ∀ {base cascade : U8} {offset : ℕ} {c : Chip}, ShowsLines base cascade offset l c →
      lineOf irq = offset + irq.toNat % 8 → ∀ i < 8,
        (if b then c.imr &&& ~~~ picLine irq else c.imr ||| picLine irq).getLsbD i =
          !update l.enabled (lineOf irq) b (offset + i) := by
    intro base cascade offset c hc hline i hi
    rw [picLine_eq, hline]
    by_cases hin : i = irq.toNat % 8
    · rw [← hin, Function.update_self]
      cases b <;> simp [getLsbD_bit hi, hi]
    · have hbit : (bit (irq.toNat % 8)).getLsbD i = false := by
        rw [getLsbD_bit hn, decide_eq_false hin]
      rw [Function.update_of_ne (by omega), ← hc.imr i hi]
      cases b with
      | false => rw [if_neg Bool.false_ne_true, BitVec.getLsbD_or, hbit, Bool.or_false]
      | true =>
        rw [if_pos rfl, BitVec.getLsbD_and, BitVec.getLsbD_not, hbit, decide_eq_true hi, Bool.not_false,
          Bool.and_true, Bool.and_true]
  by_cases hirq : irq < 8#8
  · have hpair : (if b then picClearMask irq s.pair else picSetMask irq s.pair) =
        ⟨s.pair.master.writeData
          (if b then s.pair.master.imr &&& ~~~ picLine irq else s.pair.master.imr ||| picLine irq),
          s.pair.slave⟩ := by
      unfold picClearMask picSetMask picDataPort
      rw [if_pos hirq]
      cases b <;> rfl
    -- a line of the first controller
    have hline : lineOf irq = 0 + irq.toNat % 8 := by
      unfold lineOf
      rw [if_pos hirq, Nat.mod_eq_of_lt (by exact hirq), Nat.zero_add]
    have hisr : ∀ v, (s.pair.master.writeData v).isr = s.pair.master.isr := by
      intro v
      unfold Chip.writeData
      rw [h.master.ready]
    rw [hpair]
    refine ⟨h.master.writeData rfl (hbits h.master hline),
      h.slave.congr (fun _ _ => rfl) fun i hi => Function.update_of_ne (by omega) .., h.noDevice, h.handlers,
      h.serving, ?_, h.slaveService, fun hidle => (hisr _).trans (h.masterIdle hidle), h.slaveIdle⟩
    rw [hisr]
    exact h.masterService
  · have hpair : (if b then picClearMask irq s.pair else picSetMask irq s.pair) =
        ⟨s.pair.master, s.pair.slave.writeData
          (if b then s.pair.slave.imr &&& ~~~ picLine irq else s.pair.slave.imr ||| picLine irq)⟩ := by
      unfold picClearMask picSetMask picDataPort
      rw [if_neg hirq]
      cases b <;> rfl
    -- a line of the second one
    have hline : lineOf irq = 8 + irq.toNat % 8 := if_neg hirq
    have hisr : ∀ v, (s.pair.slave.writeData v).isr = s.pair.slave.isr := by
      intro v
      unfold Chip.writeData
      rw [h.slave.ready]
    rw [hpair]
    refine ⟨h.master.congr (fun _ _ => rfl) fun i hi => Function.update_of_ne (by omega) ..,
      h.slave.writeData rfl (hbits h.slave hline), h.noDevice, h.handlers, h.serving, h.masterService, ?_,
      h.masterIdle, fun hidle => (hisr _).trans (h.slaveIdle hidle)⟩
    rw [hisr]
    exact h.slaveService

/-- A handler is installed. -/
theorem Shows.install (h : Shows s l) (irq : U8) (handler : Option H) :
    Shows { s with handlers := irqInstallHandler irq handler s.handlers }
      (if irq.toNat < 16 then { l with handlers := update l.handlers irq.toNat handler } else l) := by
  unfold irqInstallHandler
  by_cases hirq : irq.toNat < 16
  · rw [if_pos hirq, if_neg (by bv_omega)]
    exact ⟨⟨h.master.ready, h.master.base, h.master.cascade, h.master.mode, h.master.irr, h.master.imr⟩,
      ⟨h.slave.ready, h.slave.base, h.slave.cascade, h.slave.mode, h.slave.irr, h.slave.imr⟩, h.noDevice,
      congrArg (update · irq.toNat handler) h.handlers, h.serving, h.masterService, h.slaveService,
      h.masterIdle, h.slaveIdle⟩
  · rw [if_neg hirq, if_pos (by bv_omega)]
    exact h

/-- A handler returns, and `pic_send_eoi` ends the interrupt: nothing stays in service. -/
theorem Shows.handlerReturns (h : Shows s l) {irq : U8} (hserving : s.serving = some irq) :
    Shows { s with pair := picSendEoi irq s.pair, serving := none } { l with serving := none } := by
  obtain ⟨slave, hpair, hshows, hisr⟩ : ∃ slave, picSendEoi irq s.pair =
      ⟨{ s.pair.master with isr := 0#8 }, slave⟩ ∧ ShowsLines 0x28#8 0x02#8 8 l slave ∧ slave.isr = 0#8 := by
    unfold picSendEoi
    by_cases hirq : 8#8 ≤ irq
    · rw [if_pos hirq]
      refine ⟨{ s.pair.slave with isr := 0#8 }, ?_, h.slave.isr _, rfl⟩
      change Pair.mk (s.pair.master.writeCommand 0x20#8) (s.pair.slave.writeCommand 0x20#8) = _
      rw [writeCommand_eoi h.masterService, writeCommand_eoi h.slaveService]
    · rw [if_neg hirq]
      refine ⟨s.pair.slave, ?_, h.slave, h.slaveIdle fun irq' hmem => ?_⟩
      · change Pair.mk (s.pair.master.writeCommand 0x20#8) s.pair.slave = _
        rw [writeCommand_eoi h.masterService]
      · rw [hserving] at hmem
        obtain rfl := Option.some.inj hmem
        bv_omega
  rw [hpair]
  exact ⟨(h.master.isr _).congr (fun _ _ => rfl) fun _ _ => rfl,
    hshows.congr (fun _ _ => rfl) fun _ _ => rfl, h.noDevice, h.handlers, rfl, .inl rfl, .inl hisr,
    fun _ => rfl, fun _ => hisr⟩

/-- A request is acknowledged. -/
theorem Shows.interrupt (h : Shows s l) (hidle : s.serving = none) (glitch : Bool) :
    (s.interrupt glitch).2 = .served (l.next glitch).1 (l.handlers (l.next glitch).1) ∧
      Shows (s.interrupt glitch).1 (l.taken glitch) := by
  have hack := acknowledged glitch h.master h.slave
    ⟨h.masterIdle hidle, h.slaveIdle (by simp [hidle])⟩ h.noDevice
  obtain ⟨hinstalled, hcall⟩ := irqHandlerC_vector s.handlers ⟨(l.next glitch).1, hack.bound⟩
  have hnat : (BitVec.ofNat 8 (l.next glitch).1).toNat = (l.next glitch).1 := by
    have hbound := hack.bound
    rw [BitVec.toNat_ofNat, Nat.mod_eq_of_lt (by omega)]
  have heq : s.interrupt glitch =
      ({ s with pair := (s.pair.acknowledge glitch).1, serving := some (BitVec.ofNat 8 (l.next glitch).1) },
        .served (l.next glitch).1 (s.handlers (l.next glitch).1)) := by
    unfold IrqState.interrupt
    simp only [hack.vector, hinstalled, hcall, hnat]
  rw [heq]
  refine ⟨congrArg (IrqAnswer.served _) (congrFun h.handlers _), hack.master, hack.slave, ?_, h.handlers, ?_,
    hack.masterService, hack.slaveService, fun hne => absurd hne (by simp), fun hlt => hack.slaveIdle ?_⟩
  · unfold Lines.taken
    dsimp only
    split
    · by_cases htwo : (l.next glitch).1 = 2
      · rw [htwo, Function.update_self]
      · rw [Function.update_of_ne (Ne.symm htwo), h.noDevice]
    · exact h.noDevice
  · exact congrArg some hnat
  · have hbound := hlt _ rfl
    rw [← hnat]
    exact hbound

/-- **One event**: the two levels answer alike and stay together. -/
theorem Shows.step (h : Shows s l) (e : IrqEvent H) :
    (s.step e).2 = (l.step e).2 ∧ Shows (s.step e).1 (l.step e).1 := by
  cases e with
  | raise line => exact ⟨rfl, h.onLine line true⟩
  | lower line => exact ⟨rfl, h.onLine line false⟩
  | setMask irq => exact ⟨rfl, h.mask irq false⟩
  | clearMask irq => exact ⟨rfl, h.mask irq true⟩
  | install irq handler => exact ⟨rfl, h.install irq handler⟩
  | interrupt glitch =>
    unfold IrqState.step Lines.step
    dsimp only
    rw [← h.serving, Option.isSome_map]
    cases hserving : s.serving with
    | some irq => exact ⟨rfl, h⟩
    | none => exact h.interrupt hserving glitch
  | handlerReturns =>
    unfold IrqState.step Lines.step
    dsimp only
    cases hserving : s.serving with
    | some irq => exact ⟨rfl, h.handlerReturns hserving⟩
    | none =>
      refine ⟨rfl, ?_⟩
      have hnone : l.serving = none := by
        rw [← h.serving, hserving]
        rfl
      rw [← hnone]
      exact h

end

/-- **The system of `pic.c` and `irq.c` is that of sixteen lines**: from `pic_init` on, in whatever state the
controllers were before, every sequence of requests, masks, installed handlers and acknowledgements, also of
requests that were taken back, calls the handlers that the lines call, in the same order; in particular no
interrupt is lost in a vector that is no line's, and none stays in service when its handler has returned. -/
theorem irq_refines_lines (p : Pair) (es : List (IrqEvent H)) :
    ∃ s l answers, (irqMachine p).run es = some (s, answers) ∧ linesMachine.run es = some (l, answers) ∧
      Shows s l := by
  refine Machine.runFrom_simulation (R := Shows) (fun s l e h => ?_) es _ _ (shows_picInit p)
  obtain ⟨hanswer, hnext⟩ := h.step e
  exact ⟨(s.step e).1, (l.step e).1, (s.step e).2, rfl, congrArg some (Prod.ext rfl hanswer.symm), hnext⟩

/-! ### Requests wait only for lines before them -/

/-- The order in which lines are served. -/
def serviceOrder : List ℕ := [0, 1] ++ secondLines ++ [3, 4, 5, 6, 7]

/-- A line has a request and is open; a line of the second controller also needs the cascade line. -/
structure Lines.Waits (l : Lines H) (n : ℕ) : Prop where
  pending : l.pending n = true
  enabled : l.enabled n = true
  cascade : 8 ≤ n → l.enabled 2 = true

/-- The event takes no request of the line back, and masks neither it nor the line it needs. -/
def IrqEvent.Spares (n : ℕ) : IrqEvent H → Prop
  | .lower line => line.1.1 ≠ n
  | .setMask irq => lineOf irq ≠ n ∧ (8 ≤ n → lineOf irq ≠ 2)
  | _ => True

/-- The first of some lines comes before every line of them that waits. -/
theorem firstOf_le {l : Lines H} {ns : List ℕ} {n : ℕ} (hn : n ∈ ns) (hwaits : l.Waits n) :
    ∃ m, l.firstOf ns = some m ∧ m ∈ ns ∧ ns.idxOf m ≤ ns.idxOf n := by
  have hp : (l.pending n && l.enabled n) = true := by rw [hwaits.pending, hwaits.enabled, Bool.and_self]
  unfold Lines.firstOf
  induction ns with
  | nil => exact absurd hn List.not_mem_nil
  | cons k ns ih =>
    by_cases hk : (l.pending k && l.enabled k) = true
    · exact ⟨k, List.find?_cons_of_pos hk, List.mem_cons_self, by rw [List.idxOf_cons_self]; exact Nat.zero_le _⟩
    · have hnk : n ≠ k := fun h => hk (h ▸ hp)
      obtain ⟨m, hm, hmem, hle⟩ := ih ((List.mem_cons.mp hn).resolve_left hnk)
      refine ⟨m, (List.find?_cons_of_neg (p := fun n => l.pending n && l.enabled n) hk).trans hm, List.mem_cons_of_mem _ hmem, ?_⟩
      have hpm : (l.pending m && l.enabled m) = true := by simpa using List.find?_some hm
      have hmk : m ≠ k := fun h => hk (h ▸ hpm)
      rw [List.idxOf_cons_ne _ hmk.symm, List.idxOf_cons_ne _ hnk.symm]
      exact Nat.succ_le_succ hle

/-- The next line is not after one that waits. -/
theorem next_le {l : Lines H} {n : ℕ} (hn : n ∈ serviceOrder) (hwaits : l.Waits n) (glitch : Bool) :
    serviceOrder.idxOf (l.next glitch).1 ≤ serviceOrder.idxOf n := by
  unfold Lines.next
  rcases List.mem_append.mp hn with hfront | hthird
  · rcases List.mem_append.mp hfront with hfirst | hsecond
    · obtain ⟨m, hm, hmem, hle⟩ := firstOf_le hfirst hwaits
      rw [hm]
      exact (by decide : ∀ m ∈ [0, 1], ∀ n ∈ [0, 1], List.idxOf m [0, 1] ≤ List.idxOf n [0, 1] →
        serviceOrder.idxOf m ≤ serviceOrder.idxOf n) m hmem n hfirst hle
    · obtain ⟨m, hm, hmem, hle⟩ := firstOf_le hsecond hwaits
      have hcascade := hwaits.cascade ((by decide : ∀ n ∈ secondLines, 8 ≤ n) n hsecond)
      cases hzero : l.firstOf [0, 1] with
      | some k =>
        exact (by decide : ∀ k ∈ [0, 1], ∀ n ∈ secondLines, serviceOrder.idxOf k ≤ serviceOrder.idxOf n) k
          (List.mem_of_find?_eq_some hzero) n hsecond
      | none =>
        dsimp only
        rw [if_pos ⟨hcascade, .inl (by rw [hm]; rfl)⟩, hm]
        exact (by decide : ∀ m ∈ secondLines, ∀ n ∈ secondLines, secondLines.idxOf m ≤ secondLines.idxOf n →
          serviceOrder.idxOf m ≤ serviceOrder.idxOf n) m hmem n hsecond hle
  · obtain ⟨m, hm, hmem, hle⟩ := firstOf_le hthird hwaits
    have hearly : ∀ k ∈ [0, 1] ++ secondLines, serviceOrder.idxOf k ≤ serviceOrder.idxOf n := by
      intro k hk
      exact (by decide : ∀ k ∈ [0, 1] ++ secondLines, ∀ n ∈ [3, 4, 5, 6, 7],
        serviceOrder.idxOf k ≤ serviceOrder.idxOf n) k hk n hthird
    cases hzero : l.firstOf [0, 1] with
    | some k => exact hearly k (List.mem_append_left _ (List.mem_of_find?_eq_some hzero))
    | none =>
      dsimp only
      split
      · cases hsecond : l.firstOf secondLines with
        | some k => exact hearly k (List.mem_append_right _ (List.mem_of_find?_eq_some hsecond))
        | none => exact hearly 15 (by decide)
      · rw [hm]
        exact (by decide : ∀ m ∈ [3, 4, 5, 6, 7], ∀ n ∈ [3, 4, 5, 6, 7],
          List.idxOf m [3, 4, 5, 6, 7] ≤ List.idxOf n [3, 4, 5, 6, 7] →
            serviceOrder.idxOf m ≤ serviceOrder.idxOf n) m hmem n hthird hle

/-- What one event does to a line that waits: it is served, or it still waits, and the line that is served
instead is before it. -/
theorem waits_step {l : Lines H} {n : ℕ} (hn : n ∈ serviceOrder) (hwaits : l.Waits n) {e : IrqEvent H}
    (he : e.Spares n) :
    (l.step e).2 = .served n (l.handlers n) ∨
      (l.step e).1.Waits n ∧
        ∀ m handler, (l.step e).2 = .served m handler → serviceOrder.idxOf m ≤ serviceOrder.idxOf n := by
  cases e with
  | raise line =>
    refine .inr ⟨⟨?_, hwaits.enabled, hwaits.cascade⟩, fun _ _ h => nomatch h⟩
    by_cases heq : n = line.1.1
    · rw [heq]
      exact Function.update_self ..
    · exact (Function.update_of_ne heq ..).trans hwaits.pending
  | lower line =>
    exact .inr ⟨⟨(Function.update_of_ne (Ne.symm he) ..).trans hwaits.pending, hwaits.enabled,
      hwaits.cascade⟩, fun _ _ h => nomatch h⟩
  | setMask irq =>
    exact .inr ⟨⟨hwaits.pending, (Function.update_of_ne he.1.symm ..).trans hwaits.enabled,
      fun h => (Function.update_of_ne (he.2 h).symm ..).trans (hwaits.cascade h)⟩, fun _ _ h => nomatch h⟩
  | clearMask irq =>
    have henabled : ∀ i, l.enabled i = true → update l.enabled (lineOf irq) true i = true := by
      intro i hi
      rw [Function.update_apply]
      split
      · rfl
      · exact hi
    exact .inr ⟨⟨hwaits.pending, henabled n hwaits.enabled, fun h => henabled 2 (hwaits.cascade h)⟩,
      fun _ _ h => nomatch h⟩
  | install irq handler =>
    refine .inr ⟨?_, fun _ _ h => nomatch h⟩
    unfold Lines.step
    dsimp only
    split
    · exact ⟨hwaits.pending, hwaits.enabled, hwaits.cascade⟩
    · exact hwaits
  | interrupt glitch =>
    have hle := next_le hn hwaits glitch
    unfold Lines.step
    dsimp only
    split
    · exact .inr ⟨hwaits, fun _ _ h => nomatch h⟩
    by_cases heq : (l.next glitch).1 = n
    · rw [heq]
      exact .inl rfl
    · refine .inr ⟨⟨?_, hwaits.enabled, hwaits.cascade⟩, fun m handler h => ?_⟩
      · dsimp only
        split
        · exact (Function.update_of_ne (Ne.symm heq) ..).trans hwaits.pending
        · exact hwaits.pending
      · obtain ⟨rfl, -⟩ := IrqAnswer.served.inj h
        exact hle
  | handlerReturns =>
    exact .inr ⟨⟨hwaits.pending, hwaits.enabled, hwaits.cascade⟩, fun _ _ h => nomatch h⟩

/-- In a run of such events every line that is served up to the one that waits is not after it. -/
theorem waits_run {n : ℕ} (hn : n ∈ serviceOrder) {es : List (IrqEvent H)} (hes : ∀ e ∈ es, e.Spares n) :
    ∀ {l l' : Lines H} {answers}, l.Waits n → linesMachine.runFrom l es = some (l', answers) →
      (∀ front m handler, front ++ [.served m handler] <+: answers →
        (∀ handler', .served n handler' ∉ front) → serviceOrder.idxOf m ≤ serviceOrder.idxOf n) ∧
      ((∀ handler, .served n handler ∉ answers) → l'.Waits n) := by
  induction es with
  | nil =>
    intro l l' answers hwaits hrun
    obtain ⟨rfl, rfl⟩ := Prod.mk.inj (Option.some.inj hrun)
    exact ⟨fun front m handler hprefix => by simp at hprefix, fun _ => hwaits⟩
  | cons e es ih =>
    intro l l' answers hwaits hrun
    obtain ⟨he, hrest⟩ := List.forall_mem_cons.mp hes
    rw [Machine.runFrom_cons_of_step (t := (l.step e).1) (o := (l.step e).2) rfl] at hrun
    obtain ⟨r, hr, hsplit⟩ := Option.map_eq_some_iff.mp hrun
    obtain ⟨rfl, rfl⟩ := Prod.mk.inj hsplit
    rcases waits_step hn hwaits he with hserved | ⟨hstill, hbefore⟩
    · rw [hserved]
      refine ⟨fun front m handler hprefix hnone => ?_, fun hnone => absurd List.mem_cons_self (hnone _)⟩
      cases front with
      | nil =>
        obtain ⟨rfl, -⟩ := IrqAnswer.served.inj (List.cons_prefix_cons.mp hprefix).1
        exact le_rfl
      | cons a front =>
        obtain rfl := (List.cons_prefix_cons.mp hprefix).1
        exact absurd List.mem_cons_self (hnone _)
    · obtain ⟨hfront, hend⟩ := ih hrest hstill hr
      refine ⟨fun front m handler hprefix hnone => ?_, fun hnone =>
        hend fun handler h => hnone handler (List.mem_cons_of_mem _ h)⟩
      cases front with
      | nil => exact hbefore m handler (List.cons_prefix_cons.mp hprefix).1.symm
      | cons a front =>
        exact hfront front m handler (List.cons_prefix_cons.mp hprefix).2
          fun handler' h => hnone handler' (List.mem_cons_of_mem _ h)

/-- A line is open at its controller, as `pic_set_mask` and `pic_clear_mask` leave it. -/
def Opened (p : Pair) (irq : U8) : Prop := inb (picDataPort irq) p &&& picLine irq = 0#8

instance (p : Pair) (irq : U8) : Decidable (Opened p irq) := inferInstanceAs (Decidable (_ = _))

/-- What is open is enabled. -/
theorem Shows.enabled {s : IrqState H} {l : Lines H} (h : Shows s l) {irq : U8} (hopen : Opened s.pair irq) :
    l.enabled (lineOf irq) = true := by
  have hn : irq.toNat % 8 < 8 := Nat.mod_lt _ (by decide)
  have hbit : (inb (picDataPort irq) s.pair).getLsbD (irq.toNat % 8) = false := by
    have hand := congrArg (fun v : U8 => v.getLsbD (irq.toNat % 8)) hopen
    simpa only [picLine_eq, BitVec.getLsbD_and, getLsbD_bit hn, BitVec.getLsbD_zero, decide_true,
      Bool.and_true] using hand
  unfold inb picDataPort at hbit
  unfold lineOf
  by_cases hirq : irq < 8#8
  · have hmod : irq.toNat % 8 = irq.toNat := Nat.mod_eq_of_lt hirq
    rw [if_pos hirq, if_pos rfl, h.master.imr _ hn, Nat.zero_add, hmod, Bool.not_eq_false'] at hbit
    rw [if_pos hirq]
    exact hbit
  · rw [if_neg hirq, if_neg (by decide), h.slave.imr _ hn, Bool.not_eq_false'] at hbit
    rw [if_neg hirq]
    exact hbit

/-- The controller of a line has its request. -/
def Requested (p : Pair) (n : ℕ) : Prop :=
  if n < 8 then p.master.irr.getLsbD n = true else p.slave.irr.getLsbD (n - 8) = true

/-- What is pending is requested. -/
theorem Shows.requested {s : IrqState H} {l : Lines H} (h : Shows s l) {n : ℕ} (hn : n < 16)
    (hpending : l.pending n = true) : Requested s.pair n := by
  unfold Requested
  split
  · rename_i hlt
    rw [h.master.irr n hlt, Nat.zero_add]
    exact hpending
  · rw [h.slave.irr (n - 8) (by omega), show 8 + (n - 8) = n by omega]
    exact hpending

/-- **A request waits only for lines before it**: whatever happened since `pic_init`, a device that raises a
line that is open keeps its request, through any further events that do not take it back or mask the line,
until the handler of the line is called; and until then no line after it in the order 0, 1, 8 to 15, 3 to 7
is served. A line of the second controller comes through line 2 of the first: for it line 2 is open as well,
and stays unmasked. -/
theorem request_waits (p : Pair) (before after : List (IrqEvent H)) (line : DeviceLine) (s : IrqState H)
    (answers : List (IrqAnswer H)) (hbefore : (irqMachine p).run before = some (s, answers))
    (hopen : Opened s.pair (BitVec.ofNat 8 line.1)) (hcascade : 8 ≤ line.1.1 → Opened s.pair 2#8)
    (hafter : ∀ e ∈ after, e.Spares line.1) :
    ∃ t answers', (irqMachine p).runFrom (s.step (.raise line)).1 after = some (t, answers') ∧
      (∀ front m handler, front ++ [.served m handler] <+: answers' →
        (∀ handler', .served line.1 handler' ∉ front) →
          serviceOrder.idxOf m ≤ serviceOrder.idxOf line.1.1) ∧
      ((∀ handler, .served line.1 handler ∉ answers') → Requested t.pair line.1) := by
  obtain ⟨s₀, l, answers₀, hs, -, hshows⟩ := irq_refines_lines p before
  obtain ⟨rfl, rfl⟩ := Prod.mk.inj (Option.some.inj (hbefore.symm.trans hs))
  have hstep := (hshows.step (.raise line)).2
  obtain ⟨t, l', answers', ht, hl', hshows'⟩ := Machine.runFrom_simulation
    (M := irqMachine p) (N := linesMachine) (R := Shows)
    (fun s l e h => ⟨(s.step e).1, (l.step e).1, (s.step e).2, rfl,
      congrArg some (Prod.ext rfl (h.step e).1.symm), (h.step e).2⟩) after _ _ hstep
  obtain ⟨hline, horder⟩ := (by decide : ∀ n : Fin 16, lineOf (BitVec.ofNat 8 n) = n.1 ∧
    (n ≠ 2 → n.1 ∈ serviceOrder)) line.1
  have hwaits : (l.step (.raise line)).1.Waits line.1 :=
    ⟨Function.update_self .., by rw [← hline]; exact hshows.enabled hopen,
      fun h => hshows.enabled (hcascade h)⟩
  obtain ⟨hfront, hend⟩ := waits_run (horder line.2) hafter hwaits hl'
  exact ⟨t, answers', ht, hfront, fun hnone => hshows'.requested line.1.2 (hend hnone).pending⟩

end

/-- The keyboard raises its line after a device of the last line, and is served first. -/
theorem request_waits_keyboard :
    let chip : Chip := ⟨.ready, false, false, 0#8, 0#8, 0#8, 0#8, 0#8, 0#8⟩
    ∃ (s t : IrqState Unit) (answers : List (IrqAnswer Unit)),
      (irqMachine ⟨chip, chip⟩).run [.install 1#8 (some ()), .clearMask 1#8, .clearMask 7#8,
        .raise ⟨7, by decide⟩] = some (s, [.quiet, .quiet, .quiet, .quiet]) ∧
      (irqMachine ⟨chip, chip⟩).runFrom (s.step (.raise ⟨1, by decide⟩)).1 [.interrupt false, .handlerReturns] =
        some (t, answers) ∧
      .served 1 (some ()) ∈ answers ∧
      ∀ front m handler, front ++ [.served m handler] <+: answers →
        (∀ handler', .served 1 handler' ∉ front) → serviceOrder.idxOf m ≤ serviceOrder.idxOf 1 := by
  intro chip
  obtain ⟨s, hs⟩ : ∃ s, (irqMachine ⟨chip, chip⟩).run [.install 1#8 (some ()), .clearMask 1#8, .clearMask 7#8,
      .raise ⟨7, by decide⟩] = some (s, [.quiet, .quiet, .quiet, .quiet]) := ⟨_, rfl⟩
  have hopen : Opened s.pair 1#8 := by
    obtain ⟨rfl, -⟩ := Prod.mk.inj (Option.some.inj hs)
    decide
  obtain ⟨t, answers, ht, hfront, -⟩ := request_waits ⟨chip, chip⟩ _ [.interrupt false, .handlerReturns]
    ⟨1, by decide⟩ s _ hs hopen (fun h => absurd h (by decide))
    (List.forall_mem_cons.mpr ⟨trivial, List.forall_mem_cons.mpr ⟨trivial, fun _ h => nomatch h⟩⟩)
  refine ⟨s, t, answers, hs, ht, ?_, hfront⟩
  obtain ⟨rfl, -⟩ := Prod.mk.inj (Option.some.inj hs)
  obtain ⟨-, rfl⟩ := Prod.mk.inj (Option.some.inj ht)
  decide

end Microkernel.Arch
