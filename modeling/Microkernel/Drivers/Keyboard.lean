import Microkernel.Lib.CircularBuffer
import Microkernel.Lib.Machine
import Microkernel.Word

/-! # The keyboard driver

`keyboard.c`: the interrupt handler translates scancodes and puts characters into a ring buffer of 128
bytes; the shell takes them out with the interrupts enabled. The reader is therefore modelled read by read
and write by write, and an interrupt may come between any two of them.

* **`Keyboard`, `KbdState`** — the static data of the driver, and it together with what the reader holds
  in its registers.
* **`kbdGetStep`** — one access of `kbd_buf_get`: reading the tail, the head and the character, and
  writing the tail.
* **`KbdState.Follows`** — the invariant, which both sides keep. An interrupt moves the head only, so
  nothing that the reader has seen becomes wrong.
* **`kbd_fifo`** — what is read is what was kept, in order; a character is dropped only when 127 are
  unread.
-/

namespace Microkernel.Drivers

open Function (update)

/-- `KBD_BUF_SIZE`. -/
def kbdBufSize : U32 := 128#32

/-- The static data of the driver. -/
structure Keyboard where
  /-- `g_kbd_buf`. -/
  buf : ℕ → U8
  /-- `g_kbd_head`: where the next character goes. -/
  head : U8
  /-- `g_kbd_tail`: the next character to be read. -/
  tail : U8
  /-- `g_shift_down`. -/
  shiftDown : Bool
  /-- `g_e0_prefix`. -/
  e0Prefix : Bool

/-- The index after `i`: `(uint8_t)((i + 1u) % KBD_BUF_SIZE)`. -/
def kbdBufNext (i : U8) : U8 := ((i.setWidth 32 + 1#32) % kbdBufSize).setWidth 8

/-- `kbd_buf_put(c)`: the character is dropped when the buffer is full. -/
def kbdBufPut (c : U8) (k : Keyboard) : Keyboard :=
  let head := k.head
  let next := kbdBufNext head
  if next = k.tail then k
  else
    -- the character first, then the index
    let k := { k with buf := update k.buf head.toNat c }
    { k with head := next }

/-- `kbd_buf_get(&c)` without interrupts, where `none` is the answer `0`. -/
def kbdBufGet (k : Keyboard) : Keyboard × Option U8 :=
  let tail := k.tail
  if tail = k.head then (k, none)
  else ({ k with tail := kbdBufNext tail }, some (k.buf tail.toNat))

/-! ### The interrupt handler -/

/-- `scancode_map`; the entries behind the last one are `0`. -/
def scancodeMap : List Char :=
  "\x00\x001234567890-=\x08\tqwertyuiop[]\n\x00asdfghjkl;'`\x00\\zxcvbnm,./\x00\x00\x00 ".toList

/-- `scancode_map_shift`. -/
def scancodeMapShift : List Char :=
  "\x00\x00!@#$%^&*()_+\x08\tQWERTYUIOP\x7b\x7d\n\x00ASDFGHJKL:\"~\x00|ZXCVBNM<>?\x00\x00\x00 ".toList

/-- The entry for a scancode below `0x40`. -/
def scancodeChar (shiftDown : Bool) (code : U8) : U8 :=
  let map := if shiftDown then scancodeMapShift else scancodeMap
  BitVec.ofNat 8 (map.getD code.toNat '\x00').toNat

/-- `keyboard_handle_scancode(sc)`. -/
def keyboardHandleScancode (sc : U8) (k : Keyboard) : Keyboard :=
  if sc = 0xE0#8 then { k with e0Prefix := true }
  -- the byte behind the prefix is not looked at
  else if k.e0Prefix then { k with e0Prefix := false }
  else
    let released := sc &&& 0x80#8 ≠ 0#8
    let code := sc &&& 0x7F#8
    -- both Shift keys set the one flag
    if code = 0x2A#8 ∨ code = 0x36#8 then { k with shiftDown := ¬ released }
    else if released then k
    else if code < 0x40#8 then
      let ch := scancodeChar k.shiftDown code
      -- the release of other keys, and keys without a character, do nothing
      if ch ≠ 0#8 then kbdBufPut ch k else k
    else k

/-! ### A reader that is interrupted -/

/-- Where the reader is in `kbd_buf_get`, with what it has read so far. -/
inductive KbdReader where
  /-- Not in a call. -/
  | idle
  /-- `g_kbd_tail` has been read. -/
  | tailRead (tail : U8)
  /-- `g_kbd_head` has been read, and the buffer was not empty. -/
  | notEmpty (tail : U8)
  /-- The character has been stored to `*out`. -/
  | charRead (tail c : U8)

/-- The driver and the reader. -/
structure KbdState where
  kbd : Keyboard
  reader : KbdReader

/-- What happens next: an interrupt puts a character, or the reader makes its next access. -/
inductive KbdEvent where
  | put (c : U8)
  | get

/-- The next access of the reader, and the character when the call returns `1`. -/
def kbdGetStep (s : KbdState) : KbdState × Option U8 :=
  match s.reader with
  | .idle => ({ s with reader := .tailRead s.kbd.tail }, none)
  | .tailRead tail =>
      if tail = s.kbd.head then ({ s with reader := .idle }, none)
      else ({ s with reader := .notEmpty tail }, none)
  | .notEmpty tail => ({ s with reader := .charRead tail (s.kbd.buf tail.toNat) }, none)
  | .charRead tail c => (⟨{ s.kbd with tail := kbdBufNext tail }, .idle⟩, some c)

/-- One event. -/
def kbdStep (s : KbdState) : KbdEvent → Option (KbdState × Option U8)
  | .put c => some ({ s with kbd := kbdBufPut c s.kbd }, none)
  | .get => some (kbdGetStep s)

/-- The driver with its reader, from the static data on. -/
def kbdMachine : Machine KbdState KbdEvent (Option U8) :=
  ⟨⟨⟨fun _ => 0#8, 0#8, 0#8, false, false⟩, .idle⟩, kbdStep⟩

/-- The characters that were kept when they were put, and those that the reader got. -/
structure KbdLog where
  kept : List U8
  got : List U8

/-- What an event and its answer add to the log: a character is dropped when 127 of those kept have not
been got. -/
def kbdRecord (log : KbdLog) : KbdEvent × Option U8 → KbdLog
  | (.put c, _) =>
      if log.kept.length - log.got.length = 127 then log else { log with kept := log.kept ++ [c] }
  | (.get, answer) => { log with got := log.got ++ answer.toList }

/-- The characters between the two indices of the buffer. -/
def Keyboard.unread (k : Keyboard) : List U8 :=
  CircularBuffer.contents 128 k.buf k.tail.toNat ((k.head.toNat + 128 - k.tail.toNat) % 128)

/-- The reader has seen what it would still see now. -/
def KbdReader.UpToDate (k : Keyboard) : KbdReader → Prop
  | .idle => True
  | .tailRead tail => tail = k.tail
  | .notEmpty tail => tail = k.tail ∧ k.unread ≠ []
  | .charRead tail c => tail = k.tail ∧ k.unread.head? = some c

/-- **The invariant of the buffer**: both indices are in range, the characters kept are those got and then
those in the buffer, and no interrupt makes what the reader has seen out of date. -/
structure KbdState.Follows (s : KbdState) (log : KbdLog) : Prop where
  head_lt : s.kbd.head.toNat < 128
  tail_lt : s.kbd.tail.toNat < 128
  kept : log.kept = log.got ++ s.kbd.unread
  reader : s.reader.UpToDate s.kbd

section Buffer
variable {k : Keyboard}

/-- The next index of the buffer, modulo its size. -/
theorem kbdBufNext_toNat (i : U8) : (kbdBufNext i).toNat = (i.toNat + 1) % 128 := by
  unfold kbdBufNext kbdBufSize
  rw [BitVec.toNat_setWidth, BitVec.toNat_umod, BitVec.toNat_add, BitVec.toNat_setWidth]
  show (i.toNat % 2 ^ 32 + 1) % 2 ^ 32 % 128 % 2 ^ 8 = _
  omega

/-- The number of unread characters, from the two indices. -/
theorem Keyboard.length_unread (k : Keyboard) :
    k.unread.length = (k.head.toNat + 128 - k.tail.toNat) % 128 := CircularBuffer.length_contents

/-- Putting a character makes it the last unread one, unless 127 are unread. -/
theorem kbdBufPut_spec (hhead : k.head.toNat < 128) (htail : k.tail.toNat < 128) (c : U8) :
    (kbdBufPut c k).head.toNat < 128 ∧ (kbdBufPut c k).tail = k.tail ∧
      (kbdBufPut c k).unread = if k.unread.length = 127 then k.unread else k.unread ++ [c] := by
  have hnext := kbdBufNext_toNat k.head
  rw [k.length_unread]
  obtain ⟨n, hn⟩ : ∃ n, (k.head.toNat + 128 - k.tail.toNat) % 128 = n := ⟨_, rfl⟩
  have hcell : k.head.toNat = (k.tail.toNat + n) % 128 := by omega
  have hfull : kbdBufNext k.head = k.tail ↔ n = 127 := by
    rw [← BitVec.toNat_inj, hnext]
    omega
  unfold kbdBufPut
  dsimp only
  rw [hn]
  by_cases hfull' : n = 127
  · rw [if_pos (hfull.mpr hfull'), if_pos hfull']
    exact ⟨hhead, rfl, rfl⟩
  · rw [if_neg (mt hfull.mp hfull'), if_neg hfull']
    refine ⟨?_, rfl, ?_⟩
    · rw [hnext]
      omega
    · have hn' : ((kbdBufNext k.head).toNat + 128 - k.tail.toNat) % 128 = n + 1 := by
        rw [hnext]
        omega
      unfold Keyboard.unread
      dsimp only
      rw [hn', hn, hcell, CircularBuffer.contents_push (by omega)]

/-- The buffer is empty when the indices are equal. -/
theorem Keyboard.unread_eq_nil_iff (hhead : k.head.toNat < 128) (htail : k.tail.toNat < 128) :
    k.unread = [] ↔ k.tail = k.head := by
  rw [← List.length_eq_zero_iff, k.length_unread, ← BitVec.toNat_inj]
  omega

/-- The cell at the tail holds the first unread character, and the others follow the next cell. -/
theorem Keyboard.unread_eq_cons (hhead : k.head.toNat < 128) (htail : k.tail.toNat < 128)
    (hne : k.unread ≠ []) :
    k.unread = k.buf k.tail.toNat :: { k with tail := kbdBufNext k.tail }.unread := by
  have hnext := kbdBufNext_toNat k.tail
  rw [← List.length_pos_iff_ne_nil, k.length_unread] at hne
  obtain ⟨n, hn⟩ : ∃ n, (k.head.toNat + 128 - k.tail.toNat) % 128 = n + 1 := ⟨_, (Nat.succ_pred hne.ne').symm⟩
  have hn' : (k.head.toNat + 128 - (kbdBufNext k.tail).toNat) % 128 = n := by
    rw [hnext]
    omega
  unfold Keyboard.unread
  dsimp only
  rw [hn, hn', hnext, CircularBuffer.contents_pop htail]

end Buffer

/-- The log says how many characters are unread. -/
theorem KbdState.Follows.length {s : KbdState} {log : KbdLog} (h : s.Follows log) :
    log.kept.length - log.got.length = s.kbd.unread.length := by
  rw [h.kept, List.length_append, Nat.add_sub_cancel_left]

/-- An interrupt does not make what the reader has seen out of date: the cells between the indices and the
tail are not written. -/
theorem KbdState.Follows.put {s : KbdState} {log : KbdLog} (h : s.Follows log) (c : U8) :
    KbdState.Follows { s with kbd := kbdBufPut c s.kbd } (kbdRecord log (.put c, none)) := by
  obtain ⟨hhead, htail, hunread⟩ := kbdBufPut_spec h.head_lt h.tail_lt c
  have hlog : kbdRecord log (.put c, none) =
      if s.kbd.unread.length = 127 then log else { log with kept := log.kept ++ [c] } := by
    rw [← h.length]
    rfl
  have hprefix : s.kbd.unread <+: (kbdBufPut c s.kbd).unread := by
    rw [hunread]
    split
    · exact List.prefix_rfl
    · exact List.prefix_append ..
  refine ⟨hhead, ?_, ?_, ?_⟩
  · rw [htail]
    exact h.tail_lt
  · rw [hlog, hunread]
    split
    · exact h.kept
    · dsimp only
      rw [h.kept, List.append_assoc]
  · have hreader := h.reader
    cases hr : s.reader with
    | idle => trivial
    | tailRead tail =>
      rw [hr] at hreader
      exact hreader.trans htail.symm
    | notEmpty tail =>
      rw [hr] at hreader
      refine ⟨hreader.1.trans htail.symm, fun hnil => hreader.2 ?_⟩
      exact List.prefix_nil.mp (hnil ▸ hprefix)
    | charRead tail c' =>
      rw [hr] at hreader
      obtain ⟨l, hl⟩ := hprefix
      refine ⟨hreader.1.trans htail.symm, ?_⟩
      rw [← hl, List.head?_append, hreader.2]
      rfl

/-- Each access of the reader keeps the invariant; the last one takes the first unread character. -/
theorem KbdState.Follows.get {s : KbdState} {log : KbdLog} (h : s.Follows log) :
    (kbdGetStep s).1.Follows (kbdRecord log (.get, (kbdGetStep s).2)) := by
  have hnone : kbdRecord log (.get, none) = log := by
    show KbdLog.mk log.kept (log.got ++ []) = log
    rw [List.append_nil]
  have hreader := h.reader
  unfold kbdGetStep
  cases hr : s.reader with
  | idle =>
    dsimp only
    rw [hnone]
    exact ⟨h.head_lt, h.tail_lt, h.kept, rfl⟩
  | tailRead tail =>
    rw [hr] at hreader
    dsimp only
    split
    · rw [hnone]
      exact ⟨h.head_lt, h.tail_lt, h.kept, trivial⟩
    · rename_i hne
      rw [hnone]
      refine ⟨h.head_lt, h.tail_lt, h.kept, hreader, fun hnil => hne ?_⟩
      exact hreader.trans ((Keyboard.unread_eq_nil_iff h.head_lt h.tail_lt).mp hnil)
  | notEmpty tail =>
    rw [hr] at hreader
    obtain ⟨rfl, hne⟩ := hreader
    dsimp only
    rw [hnone]
    refine ⟨h.head_lt, h.tail_lt, h.kept, rfl, ?_⟩
    rw [Keyboard.unread_eq_cons h.head_lt h.tail_lt hne]
    rfl
  | charRead tail c =>
    rw [hr] at hreader
    obtain ⟨rfl, hc⟩ := hreader
    have hne : s.kbd.unread ≠ [] := by
      intro hnil
      rw [hnil] at hc
      exact absurd hc (by simp)
    have hcons := Keyboard.unread_eq_cons h.head_lt h.tail_lt hne
    rw [hcons] at hc
    obtain rfl := Option.some.inj hc
    refine ⟨h.head_lt, ?_, ?_, trivial⟩
    · show (kbdBufNext s.kbd.tail).toNat < 128
      rw [kbdBufNext_toNat]
      omega
    · show log.kept = (log.got ++ [_]) ++ _
      rw [h.kept, hcons, List.append_assoc]
      rfl

/-- `kbd_buf_get` takes the oldest unread character, if there is one. -/
theorem kbdBufGet_spec {k : Keyboard} (hhead : k.head.toNat < 128) (htail : k.tail.toNat < 128) :
    (kbdBufGet k).2 = k.unread.head? ∧ (kbdBufGet k).1.unread = k.unread.tail := by
  unfold kbdBufGet
  dsimp only
  split
  · rename_i heq
    have hnil := (Keyboard.unread_eq_nil_iff hhead htail).mpr heq
    dsimp only
    rw [hnil]
    exact ⟨rfl, rfl⟩
  · rename_i hne
    rw [Keyboard.unread_eq_cons hhead htail (mt (Keyboard.unread_eq_nil_iff hhead htail).mp hne)]
    exact ⟨rfl, rfl⟩

/-- Without an interrupt the accesses of a call add up to `kbd_buf_get`. -/
theorem kbdGetStep_alone (k : Keyboard) :
    ∃ n, kbdMachine.runFrom ⟨k, .idle⟩ (List.replicate (n + 1) .get) =
      some (⟨(kbdBufGet k).1, .idle⟩, List.replicate n none ++ [(kbdBufGet k).2]) := by
  unfold kbdBufGet
  by_cases hempty : k.tail = k.head
  · exact ⟨1, by simp [Machine.runFrom, kbdMachine, kbdStep, kbdGetStep, hempty]⟩
  · exact ⟨3, by simp [Machine.runFrom, kbdMachine, kbdStep, kbdGetStep, hempty, List.replicate_succ]⟩

/-- **The ring buffer is a lossless queue**, wherever interrupts come between the accesses of the reader:
the characters kept, which are all that were put except those put while 127 were unread, are in order those
that the reader got and then those in the buffer, and both indices stay below 128. Nothing stays behind: the
accesses of a call that is not interrupted add up to `kbd_buf_get`, which takes the oldest unread character. -/
theorem kbd_fifo (events : List KbdEvent) :
    ∃ s answers, kbdMachine.run events = some (s, answers) ∧
      (let log := (events.zip answers).foldl kbdRecord ⟨[], []⟩
       log.kept = log.got ++ s.kbd.unread) ∧
      s.kbd.unread.length ≤ 127 ∧ s.kbd.head.toNat < 128 ∧ s.kbd.tail.toNat < 128 ∧
      (kbdBufGet s.kbd).2 = s.kbd.unread.head? ∧ (kbdBufGet s.kbd).1.unread = s.kbd.unread.tail ∧
      ∃ n, kbdMachine.runFrom ⟨s.kbd, .idle⟩ (List.replicate (n + 1) .get) =
        some (⟨(kbdBufGet s.kbd).1, .idle⟩, List.replicate n none ++ [(kbdBufGet s.kbd).2]) := by
  have hinit : kbdMachine.init.Follows ⟨[], []⟩ := ⟨by decide, by decide, rfl, trivial⟩
  obtain ⟨s, answers, hrun, h⟩ := Machine.runFrom_trace (M := kbdMachine)
    (R := KbdState.Follows) kbdRecord
    (fun s log event h => by
      cases event with
      | put c => exact ⟨_, _, rfl, h.put c⟩
      | get => exact ⟨_, _, rfl, h.get⟩) events kbdMachine.init ⟨[], []⟩ hinit
  obtain ⟨holdest, hrest⟩ := kbdBufGet_spec h.head_lt h.tail_lt
  refine ⟨s, answers, hrun, h.kept, ?_, h.head_lt, h.tail_lt, holdest, hrest, kbdGetStep_alone s.kbd⟩
  rw [s.kbd.length_unread]
  omega

end Microkernel.Drivers
