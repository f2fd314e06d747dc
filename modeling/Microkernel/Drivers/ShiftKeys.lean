import Microkernel.Drivers.Keyboard
import Mathlib.Data.List.Induction

/-! # The two Shift keys

Keys are pressed and released, the keyboard turns each event into scancodes, and
`keyboard_handle_scancode` sees only these. It has one flag for two Shift keys: the flag is what the last
event on either of them was, which is not whether one of them is held.

* **`KeyEvent`** — what a hand does, with the scancodes that the keyboard makes of it.
* **`shiftFlag_eq_iff`** — the flag is wrong exactly when the last event on a Shift key let one go while
  the other one was held.
* **`keyboard_translates_iff`** — exactly then the next key gives another character than the keys that are
  held would.
-/

namespace Microkernel.Drivers

open Function (update)

/-! ### Keys and their scancodes -/

/-- A key: its make code, and whether the code follows the prefix `0xE0`. The code `0x60` is no key's, since
its break code would be the prefix. -/
@[ext]
structure Key where
  code : U8
  extended : Bool
  code_lt : code < 0x80#8
  code_ne : code ≠ 0x60#8
deriving DecidableEq

/-- The two Shift keys. -/
def Key.leftShift : Key := ⟨0x2A#8, false, by decide, by decide⟩
/-- The right Shift key. -/
def Key.rightShift : Key := ⟨0x36#8, false, by decide, by decide⟩

/-- A key goes down, once or again and again while it is held, or up. -/
inductive KeyEvent where
  | press (key : Key)
  | release (key : Key)
deriving DecidableEq

namespace KeyEvent

/-- The key of an event. -/
def key : KeyEvent → Key
  | .press key => key
  | .release key => key

/-- The event is a press. -/
def pressed : KeyEvent → Bool
  | .press _ => true
  | .release _ => false

/-- The make code or the break code of the event's key. -/
def code : KeyEvent → U8
  | .press key => key.code
  | .release key => key.code ||| 0x80#8

/-- What the keyboard sends for an event. -/
def scancodes (e : KeyEvent) : List U8 :=
  if e.key.extended then [0xE0#8, e.code] else [e.code]

/-- The event is one of a Shift key. -/
def OnShift (e : KeyEvent) : Prop := e.key = .leftShift ∨ e.key = .rightShift

instance (e : KeyEvent) : Decidable e.OnShift := inferInstanceAs (Decidable (_ ∨ _))

/-- The character of an event: a make code that is not extended has the entry of the shifted table or of the
plain one, if there is one. -/
def character (shifted : Bool) : KeyEvent → Option U8
  | .release _ => none
  | .press key =>
      if ¬ key.extended ∧ key.code < 0x40#8 ∧ scancodeChar shifted key.code ≠ 0#8 then
        some (scancodeChar shifted key.code)
      else none

end KeyEvent

/-! ### What is held -/

/-- The keys held after an event. -/
def heldAfter (held : Key → Bool) (e : KeyEvent) : Key → Bool := update held e.key e.pressed

/-- The keys held after a sequence of events; at first none is. -/
def keysHeld (events : List KeyEvent) : Key → Bool := events.foldl heldAfter fun _ => false

/-- At least one of the two Shift keys is held. -/
def shiftHeld (held : Key → Bool) : Bool := held .leftShift || held .rightShift

/-- The last event on a Shift key. -/
def lastShift (events : List KeyEvent) : Option KeyEvent := (events.filter (·.OnShift)).getLast?

/-- One Shift key was released last, while the other one is held. -/
def ShiftLost (events : List KeyEvent) : Prop :=
  (∃ key, lastShift events = some (.release key)) ∧ shiftHeld (keysHeld events)

/-! ### What the handler is asked to do -/

/-- The handler on the scancodes of an event. -/
def Keyboard.handle (e : KeyEvent) (k : Keyboard) : Keyboard :=
  e.scancodes.foldl (fun k sc => keyboardHandleScancode sc k) k

/-- At most one character is put. -/
def Keyboard.put (k : Keyboard) : Option U8 → Keyboard
  | none => k
  | some c => kbdBufPut c k

/-- The driver gives an event the character of the keys that are held: whatever is in the buffer, it puts
this one and no other. -/
def Keyboard.Translates (k : Keyboard) (held : Key → Bool) (e : KeyEvent) : Prop :=
  ∀ buf head tail, ∃ shiftDown e0Prefix,
    ({ k with buf := buf, head := head, tail := tail } : Keyboard).handle e =
      { ({ k with buf := buf, head := head, tail := tail } : Keyboard).put
          (e.character (shiftHeld held)) with shiftDown := shiftDown, e0Prefix := e0Prefix }

/-- A scancode interrupts, or the reader makes its next access. -/
inductive KeyboardInput where
  | scancode (sc : U8)
  | get

/-- The scancodes among the inputs. -/
def KeyboardInput.scancode? : KeyboardInput → Option U8
  | .scancode sc => some sc
  | .get => none

/-- One input. -/
def keyboardStep (s : KbdState) : KeyboardInput → Option (KbdState × Option U8)
  | .scancode sc => some ({ s with kbd := keyboardHandleScancode sc s.kbd }, none)
  | .get => some (kbdGetStep s)

/-- The handler and the reader, from the static data on. -/
def keyboardMachine : Machine KbdState KeyboardInput (Option U8) := ⟨kbdMachine.init, keyboardStep⟩

/-! ### The flags -/

/-- `g_shift_down` and `g_e0_prefix`. -/
def Keyboard.flags (k : Keyboard) : Bool × Bool := (k.shiftDown, k.e0Prefix)

/-- The flags after a scancode, which depend on nothing else. -/
def flagsAfter (flags : Bool × Bool) (sc : U8) : Bool × Bool :=
  if sc = 0xE0#8 then (flags.1, true)
  else if flags.2 then (flags.1, false)
  else if sc &&& 0x7F#8 = 0x2A#8 ∨ sc &&& 0x7F#8 = 0x36#8 then (¬ sc &&& 0x80#8 ≠ 0#8, false)
  else flags

/-- Putting a character leaves the flags alone. -/
theorem kbdBufPut_keeps (c : U8) (k : Keyboard) :
    { kbdBufPut c k with shiftDown := k.shiftDown, e0Prefix := k.e0Prefix } = kbdBufPut c k := by
  unfold kbdBufPut
  dsimp only
  split <;> rfl

/-- A scancode moves the driver's flags on. -/
theorem keyboardHandleScancode_flags (sc : U8) (k : Keyboard) :
    (keyboardHandleScancode sc k).flags = flagsAfter k.flags sc := by
  unfold keyboardHandleScancode flagsAfter
  dsimp only
  split
  · rfl
  change _ = if k.e0Prefix = true then _ else _
  split
  · rfl
  rename_i hprefixed
  split
  · simp [Keyboard.flags, hprefixed]
  split
  · rfl
  split
  · split
    · exact (congrArg Keyboard.flags (kbdBufPut_keeps _ k)).symm
    · rfl
  · rfl

/-- The reader does not touch the flags. -/
theorem kbdGetStep_flags (s : KbdState) : (kbdGetStep s).1.kbd.flags = s.kbd.flags := by
  unfold kbdGetStep
  split
  · rfl
  · split <;> rfl
  · rfl
  · rfl

/-- One input moves the flags by its scancode, if it is one. -/
theorem keyboardStep_flags (s : KbdState) (input : KeyboardInput) :
    ∃ t answer, keyboardMachine.step s input = some (t, answer) ∧
      t.kbd.flags = input.scancode?.toList.foldl flagsAfter s.kbd.flags := by
  cases input with
  | scancode sc => exact ⟨_, _, rfl, keyboardHandleScancode_flags sc s.kbd⟩
  | get => exact ⟨_, _, rfl, kbdGetStep_flags s⟩

/-- **Only the scancodes move the flags**, wherever the accesses of the reader come between them. -/
theorem keyboardMachine_flags (inputs : List KeyboardInput) : ∀ s,
    ∃ t answers, keyboardMachine.runFrom s inputs = some (t, answers) ∧
      t.kbd.flags = (inputs.filterMap KeyboardInput.scancode?).foldl flagsAfter s.kbd.flags := by
  induction inputs with
  | nil => exact fun s => ⟨s, [], rfl, rfl⟩
  | cons input inputs ih =>
    intro s
    obtain ⟨s₁, answer, hstep, hs₁⟩ := keyboardStep_flags s input
    obtain ⟨t, answers, hrun, ht⟩ := ih s₁
    refine ⟨t, answer :: answers, ?_, ?_⟩
    · rw [Machine.runFrom_cons_of_step hstep, hrun]
      rfl
    · rw [ht, hs₁]
      cases input <;> rfl

/-! ### One key event -/

/-- The Shift flag after an event. -/
def KeyEvent.shiftAfter (shifted : Bool) (e : KeyEvent) : Bool :=
  if e.OnShift then e.pressed else shifted

/-- What the bits of a make code and of its break code are. -/
theorem makeCode_bits : ∀ code : U8, code < 0x80#8 → code ≠ 0x60#8 →
    code ≠ 0xE0#8 ∧ code &&& 0x80#8 = 0#8 ∧ code &&& 0x7F#8 = code ∧
      code ||| 0x80#8 ≠ 0xE0#8 ∧ (code ||| 0x80#8) &&& 0x80#8 ≠ 0#8 ∧ (code ||| 0x80#8) &&& 0x7F#8 = code := by
  decide

/-- A key behind the prefix does nothing. -/
theorem Keyboard.handle_extended {e : KeyEvent} (he : e.key.extended) (k : Keyboard) :
    k.handle e = { k with e0Prefix := false } := by
  have hcode : e.code ≠ 0xE0#8 := by
    obtain ⟨hmake, -, -, hbreak, -, -⟩ := makeCode_bits e.key.code e.key.code_lt e.key.code_ne
    cases e
    · exact hmake
    · exact hbreak
  unfold Keyboard.handle KeyEvent.scancodes
  rw [if_pos he]
  show keyboardHandleScancode e.code { k with e0Prefix := true } = _
  unfold keyboardHandleScancode
  rw [if_neg hcode, if_pos rfl]

/-- A make code without the prefix. -/
theorem keyboardHandleScancode_make {k : Keyboard} (hk : k.e0Prefix = false) (key : Key) :
    keyboardHandleScancode key.code k =
      if key.code = 0x2A#8 ∨ key.code = 0x36#8 then { k with shiftDown := true }
      else if key.code < 0x40#8 ∧ scancodeChar k.shiftDown key.code ≠ 0#8 then
        kbdBufPut (scancodeChar k.shiftDown key.code) k
      else k := by
  obtain ⟨hprefixed, hpress, hcode, -⟩ := makeCode_bits key.code key.code_lt key.code_ne
  unfold keyboardHandleScancode
  dsimp only
  rw [if_neg hprefixed, hk, if_neg Bool.false_ne_true, hcode, hpress, if_neg (not_not.mpr rfl)]
  split
  · rfl
  by_cases hlt : key.code < 0x40#8
  · rw [if_pos hlt]
    simp only [hlt, true_and]
  · rw [if_neg hlt, if_neg fun h => hlt h.1]

/-- A break code without the prefix. -/
theorem keyboardHandleScancode_break {k : Keyboard} (hk : k.e0Prefix = false) (key : Key) :
    keyboardHandleScancode (key.code ||| 0x80#8) k =
      if key.code = 0x2A#8 ∨ key.code = 0x36#8 then { k with shiftDown := false } else k := by
  obtain ⟨-, -, -, hprefixed, hrelease, hcode⟩ := makeCode_bits key.code key.code_lt key.code_ne
  unfold keyboardHandleScancode
  dsimp only
  rw [if_neg hprefixed, hk, if_neg Bool.false_ne_true, hcode, if_pos hrelease]
  simp only [hrelease, ne_eq, not_false_eq_true, not_true_eq_false, decide_false]

/-- The Shift keys are told from the other keys by their codes. -/
theorem Key.shift_iff {key : Key} (hkey : ¬ key.extended) :
    key = .leftShift ∨ key = .rightShift ↔ key.code = 0x2A#8 ∨ key.code = 0x36#8 := by
  unfold Key.leftShift Key.rightShift
  rw [Key.ext_iff, Key.ext_iff]
  simp [hkey]

/-- **One key event**: the driver puts the character that the Shift flag selects, and an event on a Shift key
sets the flag to whether it is a press. -/
theorem Keyboard.handle_spec {k : Keyboard} (hk : k.e0Prefix = false) (e : KeyEvent) :
    k.handle e = { k.put (e.character k.shiftDown) with
      shiftDown := e.shiftAfter k.shiftDown, e0Prefix := false } := by
  -- an extended key puts nothing and is no Shift key
  by_cases he : e.key.extended = true
  · have hshift : ¬ e.OnShift := by
      rintro (h | h) <;> simp [h, Key.leftShift, Key.rightShift] at he
    have hchar : e.character k.shiftDown = none := by
      cases e with
      | press key => exact if_neg fun h => h.1 he
      | release key => rfl
    rw [handle_extended he, hchar, KeyEvent.shiftAfter, if_neg hshift]
    rfl
  obtain ⟨buf, head, tail, shiftDown, e0Prefix⟩ := k
  obtain rfl : e0Prefix = false := hk
  unfold Keyboard.handle KeyEvent.scancodes KeyEvent.shiftAfter
  rw [if_neg he]
  have hon : e.OnShift ↔ _ := Key.shift_iff he
  cases e with
  | press key =>
    rw [List.foldl_cons, List.foldl_nil]
    refine (keyboardHandleScancode_make rfl key).trans ?_
    by_cases hshift : key.code = 0x2A#8 ∨ key.code = 0x36#8
    · -- a Shift key has no character in either table
      have hchar : (KeyEvent.press key).character shiftDown = none := by
        refine if_neg fun h => h.2.2 ?_
        rcases hshift with h | h <;> rw [h] <;> cases shiftDown <;> rfl
      rw [if_pos hshift, hchar, if_pos (hon.mpr hshift)]
      rfl
    · rw [if_neg hshift, if_neg (mt hon.mp hshift)]
      by_cases hchar : key.code < 0x40#8 ∧ scancodeChar shiftDown key.code ≠ 0#8
      · have hput : (KeyEvent.press key).character shiftDown = some _ := if_pos ⟨he, hchar⟩
        rw [if_pos hchar, hput]
        exact (kbdBufPut_keeps _ _).symm
      · have hput : (KeyEvent.press key).character shiftDown = none := if_neg fun h => hchar h.2
        rw [if_neg hchar, hput]
        rfl
  | release key =>
    rw [List.foldl_cons, List.foldl_nil]
    refine (keyboardHandleScancode_break rfl key).trans ?_
    by_cases hshift : key.code = 0x2A#8 ∨ key.code = 0x36#8
    · rw [if_pos hshift, if_pos (hon.mpr hshift)]
      rfl
    · rw [if_neg hshift, if_neg (mt hon.mp hshift)]
      rfl

/-! ### Histories -/

/-- The last event on a Shift key, with one event more. -/
theorem lastShift_concat (history : List KeyEvent) (e : KeyEvent) :
    lastShift (history ++ [e]) = if e.OnShift then some e else lastShift history := by
  unfold lastShift
  rw [List.filter_append]
  by_cases h : e.OnShift <;> simp [h]

/-- The keys held, with one event more. -/
theorem keysHeld_concat (history : List KeyEvent) (e : KeyEvent) :
    keysHeld (history ++ [e]) = heldAfter (keysHeld history) e := List.foldl_concat ..

/-- The Shift flag after a history: whether the last event on a Shift key was a press. -/
def shiftFlag (history : List KeyEvent) : Bool := (lastShift history).any KeyEvent.pressed

/-- The driver's Shift flag, with one event more. -/
theorem shiftFlag_concat (history : List KeyEvent) (e : KeyEvent) :
    shiftFlag (history ++ [e]) = e.shiftAfter (shiftFlag history) := by
  unfold shiftFlag KeyEvent.shiftAfter
  rw [lastShift_concat]
  split <;> rfl

/-- The flags after the scancodes of one event. -/
theorem KeyEvent.flagsAfter_scancodes (shifted : Bool) (e : KeyEvent) :
    e.scancodes.foldl flagsAfter (shifted, false) = (e.shiftAfter shifted, false) := by
  let k : Keyboard := ⟨fun _ => 0#8, 0#8, 0#8, shifted, false⟩
  have hflags : e.scancodes.foldl flagsAfter k.flags = (k.handle e).flags :=
    List.foldl_hom Keyboard.flags fun k sc => (keyboardHandleScancode_flags sc k).symm
  exact hflags.trans (congrArg Keyboard.flags (Keyboard.handle_spec rfl e))

/-- **The flag is what the last Shift event was**, and no prefix is pending between two events. -/
theorem flagsAfter_history (history : List KeyEvent) :
    (history.flatMap KeyEvent.scancodes).foldl flagsAfter (false, false) = (shiftFlag history, false) := by
  induction history using List.reverseRecOn with
  | nil => rfl
  | append_singleton history e ih =>
    rw [List.flatMap_append, List.foldl_append, ih, List.flatMap_singleton, e.flagsAfter_scancodes,
      shiftFlag_concat]

/-- A Shift key whose event was the last one on a Shift key is held when that was a press. -/
theorem keysHeld_of_lastShift {history : List KeyEvent} {e : KeyEvent} (h : lastShift history = some e) :
    e.OnShift ∧ keysHeld history e.key = e.pressed := by
  induction history using List.reverseRecOn with
  | nil => cases h
  | append_singleton history e' ih =>
    rw [lastShift_concat] at h
    rw [keysHeld_concat, heldAfter]
    split at h
    · rename_i hshift
      obtain rfl := Option.some.inj h
      exact ⟨hshift, Function.update_self ..⟩
    · rename_i hshift
      obtain ⟨he, hheld⟩ := ih h
      refine ⟨he, (Function.update_of_ne ?_ ..).trans hheld⟩
      rintro heq
      unfold KeyEvent.OnShift at he hshift
      exact hshift (heq ▸ he)

/-- A Shift key without an event is not held. -/
theorem shiftHeld_of_lastShift_eq_none {history : List KeyEvent} (h : lastShift history = none) :
    shiftHeld (keysHeld history) = false := by
  induction history using List.reverseRecOn with
  | nil => rfl
  | append_singleton history e ih =>
    rw [lastShift_concat] at h
    split at h
    · cases h
    · rename_i hshift
      unfold KeyEvent.OnShift at hshift
      rw [not_or] at hshift
      rw [← ih h, keysHeld_concat]
      unfold shiftHeld heldAfter
      rw [Function.update_of_ne (Ne.symm hshift.1), Function.update_of_ne (Ne.symm hshift.2)]

/-- **The flag is wrong exactly when a Shift key is lost**: it is never set without a Shift key being held. -/
theorem shiftFlag_eq_iff (history : List KeyEvent) :
    shiftFlag history = shiftHeld (keysHeld history) ↔ ¬ ShiftLost history := by
  unfold shiftFlag ShiftLost
  cases hlast : lastShift history with
  | none =>
    rw [shiftHeld_of_lastShift_eq_none hlast]
    exact iff_of_true rfl fun h => Bool.false_ne_true h.2
  | some e =>
    obtain ⟨hshift, hheld⟩ := keysHeld_of_lastShift hlast
    cases e with
    | press key =>
      have hpressed : shiftHeld (keysHeld history) = true := by
        unfold shiftHeld
        rw [Bool.or_eq_true]
        rcases hshift with hkey | hkey
        · exact .inl (hkey ▸ hheld)
        · exact .inr (hkey ▸ hheld)
      rw [hpressed]
      refine iff_of_true rfl ?_
      rintro ⟨⟨key', hkey'⟩, -⟩
      exact KeyEvent.noConfusion (Option.some.inj hkey')
    | release key =>
      show false = _ ↔ _
      rw [eq_comm, ← Bool.not_eq_true]
      exact not_congr ⟨fun h => ⟨⟨key, rfl⟩, h⟩, And.right⟩

/-! ### The translation -/

/-- In an empty buffer the character put is the one that is unread. -/
theorem Keyboard.unread_put {k : Keyboard} (hhead : k.head = 0#8) (htail : k.tail = 0#8)
    (c : Option U8) : (k.put c).unread = c.toList := by
  have hnil : k.unread = [] :=
    (Keyboard.unread_eq_nil_iff (by simp [hhead]) (by simp [htail])).mpr (htail.trans hhead.symm)
  cases c with
  | none => exact hnil
  | some c =>
    obtain ⟨-, -, hput⟩ := kbdBufPut_spec (k := k) (by simp [hhead]) (by simp [htail]) c
    rw [hnil] at hput
    exact hput

/-- The driver translates an event by its flag, so rightly when the flag is right or makes no difference. -/
theorem Keyboard.translates_iff {k : Keyboard} (hk : k.e0Prefix = false) (held : Key → Bool)
    (e : KeyEvent) : k.Translates held e ↔ e.character k.shiftDown = e.character (shiftHeld held) := by
  constructor
  · intro h
    obtain ⟨shiftDown, e0Prefix, heq⟩ := h (fun _ => 0#8) 0#8 0#8
    rw [handle_spec (by exact hk)] at heq
    -- from an empty buffer the unread characters tell which one was put
    have hunread := congrArg Keyboard.unread heq
    have hlist : (e.character k.shiftDown).toList = (e.character (shiftHeld held)).toList :=
      ((Keyboard.unread_put rfl rfl _).symm.trans hunread).trans (Keyboard.unread_put rfl rfl _)
    calc e.character k.shiftDown = (e.character k.shiftDown).toList.head? := Option.head?_toList.symm
      _ = (e.character (shiftHeld held)).toList.head? := congrArg List.head? hlist
      _ = e.character (shiftHeld held) := Option.head?_toList
  · intro h buf head tail
    refine ⟨e.shiftAfter k.shiftDown, false, ?_⟩
    rw [handle_spec (by exact hk), ← h]

/-- **When the translation is right**: after the scancodes of any history of key events, wherever accesses of
the reader come between them, the driver gives the next event the character of the keys that are held unless
one Shift key was released last while the other one is held and the event is the press of a key whose two
characters differ. -/
theorem keyboard_translates_iff (inputs : List KeyboardInput) (history : List KeyEvent)
    (hinputs : inputs.filterMap KeyboardInput.scancode? = history.flatMap KeyEvent.scancodes)
    (e : KeyEvent) :
    ∃ s answers, keyboardMachine.run inputs = some (s, answers) ∧
      (s.kbd.Translates (keysHeld history) e ↔
        ¬ (ShiftLost history ∧ e.character true ≠ e.character false)) := by
  obtain ⟨s, answers, hrun, hflags⟩ := keyboardMachine_flags inputs keyboardMachine.init
  refine ⟨s, answers, hrun, ?_⟩
  rw [hinputs] at hflags
  obtain ⟨hshift, hprefixed⟩ := Prod.mk.inj (hflags.trans (flagsAfter_history history))
  rw [Keyboard.translates_iff hprefixed, hshift, not_and_or, ← shiftFlag_eq_iff, not_not]
  cases shiftFlag history <;> cases shiftHeld (keysHeld history) <;> simp [eq_comm]

/-- The key of the letter a. -/
def Key.letterA : Key := ⟨0x1E#8, false, by decide, by decide⟩

theorem keyboard_translates_iff_leftShift : ∃ s answers,
    keyboardMachine.run [.scancode 0x2A#8, .get] = some (s, answers) ∧
      s.kbd.Translates (keysHeld [.press .leftShift]) (.press .letterA) := by
  obtain ⟨s, answers, hrun, hiff⟩ := keyboard_translates_iff [.scancode 0x2A#8, .get]
    [.press .leftShift] rfl (.press .letterA)
  refine ⟨s, answers, hrun, hiff.mpr fun h => ?_⟩
  obtain ⟨key, hkey⟩ := h.1.1
  exact KeyEvent.noConfusion (Option.some.inj hkey)

/-- Both Shift keys are pressed and the left one is released: with the right one still held, the letter a is
put as `a`. -/
theorem keyboard_shift_lost :
    let history := [.press .leftShift, .press .rightShift, .release .leftShift]
    ∃ s answers,
      keyboardMachine.run ((history.flatMap KeyEvent.scancodes).map .scancode) = some (s, answers) ∧
        shiftHeld (keysHeld history) = true ∧ (KeyEvent.press .letterA).character true = some 0x41#8 ∧
        (s.kbd.handle (.press .letterA)).unread = [0x61#8] ∧
        ¬ s.kbd.Translates (keysHeld history) (.press .letterA) := by
  refine ⟨_, _, rfl, by decide, by decide, by decide, ?_⟩
  rw [Keyboard.translates_iff rfl]
  decide

end Microkernel.Drivers
