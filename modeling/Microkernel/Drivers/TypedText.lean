import Microkernel.Drivers.ShiftKeys
import Mathlib.Data.List.Infix
import Mathlib.Data.List.ReduceOption

/-! # From the keys to the reader

The scancodes that interrupt ask for characters; the reader polls the ring buffer for them, access by access.
What it gets is what was typed, as long as it keeps up with the keyboard and no Shift key is lost.

* **`scancodesText`, `typedText`** — the characters that scancodes ask for, and those that the keys mean.
* **`keyboardMachine_reads`** — by induction on a run, what is read and what is still unread is a sublist
  of what was asked for.
* **`KbdState.KeepsUp`** — the condition on the run under which nothing is dropped.
* **`keyboard_delivers`** — both together, over the keys that were pressed.
-/

namespace Microkernel.Drivers

open scoped List

/-! ### What is typed -/

/-- The character that a scancode asks for. -/
def scancodeText (flags : Bool × Bool) (sc : U8) : Option U8 :=
  let code := sc &&& 0x7F#8
  if sc = 0xE0#8 then none
  else if flags.2 then none
  else if code = 0x2A#8 ∨ code = 0x36#8 then none
  else if sc &&& 0x80#8 ≠ 0#8 then none
  else if code < 0x40#8 then
    if scancodeChar flags.1 code ≠ 0#8 then some (scancodeChar flags.1 code) else none
  else none

/-- The characters that scancodes ask for, one after the other. -/
def scancodesText : Bool × Bool → List U8 → List U8
  | _, [] => []
  | flags, sc :: scs => (scancodeText flags sc).toList ++ scancodesText (flagsAfter flags sc) scs

/-- What is typed from some keys held on: a press gives the character of the keys that are held. -/
def typedFrom (held : Key → Bool) : List KeyEvent → List U8
  | [] => []
  | e :: es => (e.character (shiftHeld held)).toList ++ typedFrom (heldAfter held e) es

/-- What is typed. -/
def typedText (history : List KeyEvent) : List U8 := typedFrom (fun _ => false) history

/-- No key whose two characters differ is pressed while a Shift key is lost. -/
def ShiftKept (history : List KeyEvent) : Prop :=
  ∀ past e, past ++ [e] <+: history → ¬ (ShiftLost past ∧ e.character true ≠ e.character false)

/-! ### What is read -/

/-- What a call of `kbd_buf_get` that ends with this input returns: `some none` for the answer `0`. -/
def KbdState.returns (s : KbdState) : KeyboardInput → Option (Option U8)
  | .scancode _ => none
  | .get =>
      match s.reader with
      | .idle => none
      | .tailRead tail => if tail = s.kbd.head then some none else none
      | .notEmpty _ => none
      | .charRead _ c => some (some c)

/-- The answers of the calls that end in a run, in order. -/
def keyboardPolls : KbdState → List KeyboardInput → List (Option U8)
  | _, [] => []
  | s, input :: inputs =>
      (s.returns input).toList ++ (keyboardStep s input).elim [] fun r => keyboardPolls r.1 inputs

/-- **The reader keeps up**: at no time are there more than 127 characters that were asked for and are not
read. -/
def KbdState.KeepsUp (s : KbdState) (inputs : List KeyboardInput) : Prop :=
  ∀ past, past <+: inputs →
    s.kbd.unread.length + (scancodesText s.kbd.flags (past.filterMap KeyboardInput.scancode?)).length ≤
      (keyboardPolls s past).reduceOption.length + 127

/-- The buffer is sound: it follows some log. -/
def KbdState.Sound (s : KbdState) : Prop := ∃ log, s.Follows log

/-! ### The scancodes of a key event -/

/-- The text of scancodes in two parts. -/
theorem scancodesText_append (scs scs' : List U8) : ∀ flags,
    scancodesText flags (scs ++ scs') =
      scancodesText flags scs ++ scancodesText (scs.foldl flagsAfter flags) scs' := by
  induction scs with
  | nil => exact fun _ => rfl
  | cons sc scs ih =>
    intro flags
    rw [List.cons_append, scancodesText, ih, scancodesText, List.append_assoc]
    rfl

/-- The handler puts the character that the scancode asks for. -/
theorem keyboardHandleScancode_put (sc : U8) (k : Keyboard) :
    keyboardHandleScancode sc k = { k.put (scancodeText k.flags sc) with
      shiftDown := (flagsAfter k.flags sc).1, e0Prefix := (flagsAfter k.flags sc).2 } := by
  rw [← keyboardHandleScancode_flags]
  change _ = { k.put (scancodeText (k.shiftDown, k.e0Prefix) sc) with
    shiftDown := (keyboardHandleScancode sc k).shiftDown, e0Prefix := (keyboardHandleScancode sc k).e0Prefix }
  unfold keyboardHandleScancode scancodeText
  dsimp only
  split
  · rfl
  split
  · rfl
  split
  · rfl
  split
  · rfl
  split
  · split
    · rfl
    · rfl
  · rfl

/-- The scancodes of a key event ask for its character. -/
theorem KeyEvent.scancodesText_scancodes (shifted : Bool) (e : KeyEvent) :
    scancodesText (shifted, false) e.scancodes = (e.character shifted).toList := by
  unfold KeyEvent.scancodes
  by_cases he : e.key.extended = true
  · have hchar : e.character shifted = none := by
      cases e with
      | press key => exact if_neg fun h => h.1 he
      | release key => rfl
    rw [if_pos he, hchar]
    simp [scancodesText, scancodeText, flagsAfter]
  rw [if_neg he, scancodesText, scancodesText, List.append_nil]
  refine congrArg Option.toList ?_
  cases e with
  | release key =>
    obtain ⟨-, -, -, hprefixed, hrelease, -⟩ := makeCode_bits key.code key.code_lt key.code_ne
    have hnone : scancodeText (shifted, false) (key.code ||| 0x80#8) = none := by
      unfold scancodeText
      dsimp only
      rw [if_neg hprefixed, if_neg Bool.false_ne_true, if_pos hrelease]
      exact ite_self none
    exact hnone
  | press key =>
    obtain ⟨hprefixed, hpress, hcode, -⟩ := makeCode_bits key.code key.code_lt key.code_ne
    have htext : scancodeText (shifted, false) key.code = if key.code = 0x2A#8 ∨ key.code = 0x36#8 then none
        else if key.code < 0x40#8 then
          if scancodeChar shifted key.code ≠ 0#8 then some (scancodeChar shifted key.code) else none
        else none := by
      unfold scancodeText
      dsimp only
      simp only [hcode, hpress]
      rw [if_neg hprefixed, if_neg Bool.false_ne_true, if_neg (not_not.mpr rfl)]
    refine htext.trans ?_
    by_cases hshift : key.code = 0x2A#8 ∨ key.code = 0x36#8
    · have hnone : scancodeChar shifted key.code = 0#8 := by
        rcases hshift with h | h <;> rw [h] <;> cases shifted <;> rfl
      rw [if_pos hshift]
      exact (if_neg fun h => h.2.2 hnone).symm
    · rw [if_neg hshift, ← ite_and]
      have hplain : ¬ key.extended := he
      exact if_congr ⟨fun h => ⟨hplain, h⟩, And.right⟩ rfl rfl

/-- The driver's flag selects the characters of the keys that are held, unless a Shift key is lost. -/
theorem scancodesText_typedFrom (es : List KeyEvent) : ∀ past,
    (∀ p e, p ++ [e] <+: es → ¬ (ShiftLost (past ++ p) ∧ e.character true ≠ e.character false)) →
    scancodesText (shiftFlag past, false) (es.flatMap KeyEvent.scancodes) = typedFrom (keysHeld past) es := by
  induction es with
  | nil => exact fun _ _ => rfl
  | cons e es ih =>
    intro past hkept
    have hchar : e.character (shiftFlag past) = e.character (shiftHeld (keysHeld past)) := by
      have hnot := hkept [] e (List.prefix_iff_eq_append.mpr rfl)
      rw [List.append_nil, not_and_or, ← shiftFlag_eq_iff, not_not] at hnot
      rcases hnot with h | h
      · rw [h]
      · cases shiftFlag past <;> cases shiftHeld (keysHeld past) <;> simp [h]
    rw [List.flatMap_cons, scancodesText_append, e.scancodesText_scancodes, e.flagsAfter_scancodes, typedFrom,
      hchar, ← shiftFlag_concat, ← keysHeld_concat]
    refine congrArg _ (ih _ fun p e' hp => ?_)
    rw [List.append_assoc]
    exact hkept (e :: p) e' (List.cons_prefix_cons.mpr ⟨rfl, hp⟩)

/-- **What the scancodes ask for is what is typed**, unless a Shift key is lost. -/
theorem scancodesText_history {history : List KeyEvent} (h : ShiftKept history) :
    scancodesText (false, false) (history.flatMap KeyEvent.scancodes) = typedText history :=
  scancodesText_typedFrom history [] h

/-! ### One input -/

/-- At most 127 characters are unread. -/
theorem Keyboard.length_unread_le (k : Keyboard) : k.unread.length ≤ 127 := by
  rw [k.length_unread]
  omega

namespace KbdState
variable {s : KbdState}

/-- A scancode makes its character the last unread one, unless 127 are unread. -/
theorem Sound.scancode (hs : s.Sound) (sc : U8) :
    Sound { s with kbd := keyboardHandleScancode sc s.kbd } ∧
      (keyboardHandleScancode sc s.kbd).unread =
        if s.kbd.unread.length = 127 then s.kbd.unread
        else s.kbd.unread ++ (scancodeText s.kbd.flags sc).toList := by
  obtain ⟨log, h⟩ := hs
  rw [keyboardHandleScancode_put]
  cases scancodeText s.kbd.flags sc with
  | none => exact ⟨⟨log, h.head_lt, h.tail_lt, h.kept, h.reader⟩, by rw [Option.toList_none, List.append_nil, ite_self]; rfl⟩
  | some c =>
    have hput := h.put c
    exact ⟨⟨_, hput.head_lt, hput.tail_lt, hput.kept, hput.reader⟩, (kbdBufPut_spec h.head_lt h.tail_lt c).2.2⟩

/-- An access of the reader that ends a call takes the first unread character, if it answers with one. -/
theorem Sound.get (hs : s.Sound) : (kbdGetStep s).1.Sound ∧
    s.kbd.unread = (s.returns .get).toList.reduceOption ++ (kbdGetStep s).1.kbd.unread := by
  obtain ⟨log, h⟩ := hs
  have hget := h.get
  refine ⟨⟨_, hget⟩, ?_⟩
  have hanswer : (kbdGetStep s).2.toList = (s.returns .get).toList.reduceOption := by
    cases hr : s.reader with
    | idle => simp [kbdGetStep, returns, hr]
    | tailRead tail =>
      simp only [kbdGetStep, returns, hr]
      split <;> rfl
    | notEmpty tail => simp [kbdGetStep, returns, hr]
    | charRead tail c => simp [kbdGetStep, returns, hr, List.reduceOption_cons_of_some]
  have hkept := hget.kept
  change log.kept = (log.got ++ (kbdGetStep s).2.toList) ++ _ at hkept
  rw [h.kept, List.append_assoc, hanswer] at hkept
  exact List.append_cancel_left hkept

end KbdState

/-- **One input**: what is read and what stays unread is what was unread and what the input asks for, unless
that is dropped. -/
theorem keyboardStep_reads {s : KbdState} (hs : s.Sound) (input : KeyboardInput) :
    ∃ t answer, keyboardStep s input = some (t, answer) ∧ t.Sound ∧
      t.kbd.flags = input.scancode?.toList.foldl flagsAfter s.kbd.flags ∧
      let text := scancodesText s.kbd.flags input.scancode?.toList
      let got := (s.returns input).toList.reduceOption
      (got ++ t.kbd.unread = s.kbd.unread ++ text ∧ s.kbd.unread.length + text.length ≤ got.length + 127) ∨
        got = [] ∧ t.kbd.unread = s.kbd.unread ∧ s.kbd.unread.length = 127 ∧ text ≠ [] := by
  have hle := s.kbd.length_unread_le
  cases input with
  | scancode sc =>
    obtain ⟨hsound, hunread⟩ := hs.scancode sc
    have htext : scancodesText s.kbd.flags (KeyboardInput.scancode sc).scancode?.toList =
        (scancodeText s.kbd.flags sc).toList := List.append_nil _
    refine ⟨_, _, rfl, hsound, keyboardHandleScancode_flags sc s.kbd, ?_⟩
    change (([] : List U8) ++ (keyboardHandleScancode sc s.kbd).unread = _ ∧ _ ≤ 0 + 127) ∨
      _ ∧ (keyboardHandleScancode sc s.kbd).unread = _ ∧ _
    rw [htext, List.nil_append, hunread]
    by_cases hfull : s.kbd.unread.length = 127
    · rw [if_pos hfull]
      by_cases hnone : (scancodeText s.kbd.flags sc).toList = []
      · rw [hnone, List.append_nil]
        exact .inl ⟨rfl, hle⟩
      · exact .inr ⟨rfl, rfl, hfull, hnone⟩
    · rw [if_neg hfull]
      have hone : (scancodeText s.kbd.flags sc).toList.length ≤ 1 := by
        cases scancodeText s.kbd.flags sc <;> simp
      exact .inl ⟨rfl, by omega⟩
  | get =>
    obtain ⟨hsound, hunread⟩ := hs.get
    refine ⟨_, _, rfl, hsound, kbdGetStep_flags s, .inl ⟨?_, ?_⟩⟩
    · change _ = s.kbd.unread ++ []
      rw [List.append_nil]
      exact hunread.symm
    · change s.kbd.unread.length + 0 ≤ _
      omega

/-! ### A run -/

/-- **A run**: what is read and then what is unread is a sublist of what was unread and what is asked for, and
all of it exactly when the reader keeps up. -/
theorem keyboardMachine_reads (inputs : List KeyboardInput) : ∀ s : KbdState, s.Sound →
    ∃ t answers, keyboardMachine.runFrom s inputs = some (t, answers) ∧
      let text := s.kbd.unread ++ scancodesText s.kbd.flags (inputs.filterMap KeyboardInput.scancode?)
      let read := (keyboardPolls s inputs).reduceOption ++ t.kbd.unread
      read <+ text ∧ (read = text ↔ s.KeepsUp inputs) := by
  induction inputs with
  | nil =>
    intro s hs
    refine ⟨s, [], rfl, ?_⟩
    change ([] ++ s.kbd.unread <+ s.kbd.unread ++ []) ∧ ([] ++ s.kbd.unread = s.kbd.unread ++ [] ↔ _)
    rw [List.append_nil, List.nil_append]
    refine ⟨List.Sublist.refl _, iff_of_true rfl fun past hpast => ?_⟩
    obtain rfl := List.prefix_nil.mp hpast
    exact s.kbd.length_unread_le
  | cons input inputs ih =>
    intro s hs
    obtain ⟨s₁, answer, hstep, hs₁, hflags, hone⟩ := keyboardStep_reads hs input
    obtain ⟨t, answers, hrun, hsub, hiff⟩ := ih s₁ hs₁
    refine ⟨t, answer :: answers, ?_, ?_⟩
    · rw [Machine.runFrom_cons_of_step hstep, hrun]
      rfl
    -- the run is the step and then the rest
    have htext : ∀ rest : List KeyboardInput,
        scancodesText s.kbd.flags ((input :: rest).filterMap KeyboardInput.scancode?) =
          scancodesText s.kbd.flags input.scancode?.toList ++
            scancodesText s₁.kbd.flags (rest.filterMap KeyboardInput.scancode?) := by
      intro rest
      rw [hflags, ← scancodesText_append]
      cases input <;> rfl
    have hpolls : ∀ rest, (keyboardPolls s (input :: rest)).reduceOption =
        (s.returns input).toList.reduceOption ++ (keyboardPolls s₁ rest).reduceOption := by
      intro rest
      rw [keyboardPolls, hstep, List.reduceOption_append]
      rfl
    have hkeeps : s.KeepsUp (input :: inputs) ↔ ∀ past, past <+: inputs →
        s.kbd.unread.length + (scancodesText s.kbd.flags ((input :: past).filterMap KeyboardInput.scancode?)).length ≤
          (keyboardPolls s (input :: past)).reduceOption.length + 127 := by
      constructor
      · exact fun h past hpast => h (input :: past) (List.cons_prefix_cons.mpr ⟨rfl, hpast⟩)
      · intro h past hpast
        rcases List.prefix_cons_iff.mp hpast with rfl | ⟨rest, rfl, hrest⟩
        · exact s.kbd.length_unread_le
        · exact h rest hrest
    dsimp only at hone hsub hiff ⊢
    rw [hkeeps]
    simp only [htext, hpolls, List.append_assoc, List.length_append]
    generalize scancodesText s.kbd.flags input.scancode?.toList = text at hone ⊢
    generalize (s.returns input).toList.reduceOption = got at hone ⊢
    rcases hone with ⟨hall, hroom⟩ | ⟨rfl, hunread, hfull, hdropped⟩
    · have hlen := congrArg List.length hall
      rw [List.length_append, List.length_append] at hlen
      have hsplit : s.kbd.unread ++ (text ++ scancodesText s₁.kbd.flags (inputs.filterMap KeyboardInput.scancode?)) =
          got ++ (s₁.kbd.unread ++ scancodesText s₁.kbd.flags (inputs.filterMap KeyboardInput.scancode?)) := by
        rw [← List.append_assoc, ← hall, List.append_assoc]
      rw [hsplit]
      refine ⟨List.Sublist.append_left hsub got, List.append_right_inj got |>.trans (hiff.trans ?_)⟩
      refine forall₂_congr fun past _ => ?_
      omega
    · -- the character is dropped: from now on one is missing
      rw [List.nil_append, ← hunread]
      have hpos := List.length_pos_iff_ne_nil.mpr hdropped
      have hshorter : s₁.kbd.unread ++ scancodesText s₁.kbd.flags (inputs.filterMap KeyboardInput.scancode?) <+
          s₁.kbd.unread ++ (text ++ scancodesText s₁.kbd.flags (inputs.filterMap KeyboardInput.scancode?)) :=
        List.Sublist.append_left (List.sublist_append_right ..) _
      refine ⟨hsub.trans hshorter, iff_of_false (fun heq => ?_) fun h => ?_⟩
      · have hle := hsub.length_le
        rw [heq, List.length_append, List.length_append, List.length_append] at hle
        omega
      · have hnow := h [] (List.nil_prefix)
        simp only [List.filterMap_nil, scancodesText, keyboardPolls, List.reduceOption_nil, List.length_nil] at hnow
        rw [hunread] at hnow
        omega

/-- **What the reader gets.** Wherever the accesses of the reader come between the scancodes, what its calls
have returned and then what is unread is a sublist of the characters that the scancodes ask for, so that nothing
is made up, doubled or reordered; and it is all of them exactly when at no time more than 127 of them were left
to be read. -/
theorem keyboard_delivers (inputs : List KeyboardInput) :
    ∃ s answers, keyboardMachine.run inputs = some (s, answers) ∧
      let text := scancodesText (false, false) (inputs.filterMap KeyboardInput.scancode?)
      let read := (keyboardPolls keyboardMachine.init inputs).reduceOption ++ s.kbd.unread
      read <+ text ∧ (read = text ↔ keyboardMachine.init.KeepsUp inputs) :=
  keyboardMachine_reads inputs _ ⟨⟨[], []⟩, by decide, by decide, rfl, trivial⟩

end Microkernel.Drivers
