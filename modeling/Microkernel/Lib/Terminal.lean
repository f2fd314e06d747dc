import Microkernel.Lib.NulString
import Mathlib.Data.BitVec
import Mathlib.Logic.Function.Basic

/-! # A terminal

Rows of cells without end and a cursor. Backspace moves the cursor only; what it passes is erased by a blank
that is written over it.

* **`Screen`, `put`** — the cells with the cursor, and what one byte does to them.
* **`Shows`** — the terminal shows a line behind the place where the cursor was, and is as it was in front
  of it.
* **`Shows.push`, `Shows.pop`** — a character is shown, and a backspace, a blank and a backspace take it
  away again.
-/

namespace Microkernel

open Function (update)

/-- The cells of a terminal and the place of its cursor. -/
structure Screen where
  cell : ℕ → ℕ → BitVec 8
  row : ℕ
  col : ℕ

namespace Screen

/-- A character arrives: backspace, carriage return, line feed, or one to be shown. -/
def put (s : Screen) (c : BitVec 8) : Screen :=
  if c = 0x08#8 then { s with col := s.col - 1 }
  else if c = 0x0D#8 then { s with col := 0 }
  else if c = 0x0A#8 then { s with row := s.row + 1 }
  else { s with cell := update s.cell s.row (update (s.cell s.row) s.col c), col := s.col + 1 }

/-- Characters arrive one after the other. -/
def puts (s : Screen) (l : List (BitVec 8)) : Screen := l.foldl put s

variable {s t : Screen} {c : BitVec 8} {l l' line : List (BitVec 8)}

/-- Writing a concatenation writes its parts in turn. -/
theorem puts_append : s.puts (l ++ l') = (s.puts l).puts l' := List.foldl_append ..

/-- A backspace moves one column left and erases nothing. -/
theorem put_backspace (s : Screen) : s.put 0x08#8 = { s with col := s.col - 1 } := if_pos rfl

/-- A printable character stands where the cursor was, and the cursor moves on. -/
theorem put_of_shown (hc : 0x20#8 ≤ c) : s.put c =
    { s with cell := update s.cell s.row (update (s.cell s.row) s.col c), col := s.col + 1 } := by
  have hne : ∀ d : BitVec 8, d < 0x20#8 → c ≠ d := by
    rintro d hd rfl
    exact absurd hc (BitVec.not_le.mpr hd)
  unfold put
  rw [if_neg (hne _ (by decide)), if_neg (hne _ (by decide)), if_neg (hne _ (by decide))]

/-- The cells after one of them is overwritten. -/
def write (s : Screen) (i : ℕ) (c : BitVec 8) : ℕ → ℕ → BitVec 8 :=
  update s.cell s.row (update (s.cell s.row) i c)

/-- A cell written changes the row of the cursor. -/
theorem write_row (s : Screen) (i : ℕ) (c : BitVec 8) :
    s.write i c s.row = update (s.cell s.row) i c := Function.update_self ..

/-- Every other row stays as it was. -/
theorem write_other {r : ℕ} (h : r ≠ s.row) (i : ℕ) (c : BitVec 8) : s.write i c r = s.cell r :=
  Function.update_of_ne h ..

/-- **The terminal shows a line** behind the place where the cursor was: the cursor is behind it, nothing in
front of it or in another row has changed, and what changed behind the line is blank. -/
structure Shows (s t : Screen) (line : List (BitVec 8)) : Prop where
  row : t.row = s.row
  col : t.col = s.col + line.length
  shown : Reads (t.cell s.row) s.col line
  other : ∀ r, r ≠ s.row → t.cell r = s.cell r
  before : ∀ i < s.col, t.cell s.row i = s.cell s.row i
  behind : ∀ i, s.col + line.length ≤ i → t.cell s.row i = s.cell s.row i ∨ t.cell s.row i = 0x20#8

/-- A screen shows nothing new over itself. -/
theorem shows_nil (s : Screen) : Shows s s [] :=
  ⟨rfl, rfl, trivial, fun _ _ => rfl, fun _ _ => rfl, fun _ _ => .inl rfl⟩

/-- A character is shown behind the line. -/
theorem Shows.push (h : Shows s t line) (hc : 0x20#8 ≤ c) : Shows s (t.put c) (line ++ [c]) := by
  have hcell : (t.put c).cell = t.write t.col c := by
    rw [put_of_shown hc]
    rfl
  have hrow : t.write t.col c s.row = update (t.cell s.row) (s.col + line.length) c := by
    rw [← h.row, write_row, h.row, h.col]
  refine ⟨?_, ?_, ?_, fun r hr => ?_, fun i hi => ?_, fun i hi => ?_⟩
  · rw [put_of_shown hc]
    exact h.row
  · rw [put_of_shown hc, List.length_append, ← Nat.add_assoc, ← h.col]
    rfl
  · rw [hcell, hrow]
    refine reads_append.mpr ⟨h.shown.congr fun i _ hi => Function.update_of_ne hi.ne .., ?_, trivial⟩
    exact Function.update_self ..
  · rw [hcell, write_other (h.row ▸ hr), h.other r hr]
  · rw [hcell, hrow, Function.update_of_ne (by omega), h.before i hi]
  · rw [List.length_append, List.length_singleton] at hi
    rw [hcell, hrow, Function.update_of_ne (by omega)]
    exact h.behind i (by omega)

/-- Backspace, a blank and backspace again erase the last character of the line. -/
theorem Shows.pop (h : Shows s t (line ++ [c])) : Shows s (t.puts [0x08#8, 0x20#8, 0x08#8]) line := by
  have hcol := h.col
  rw [List.length_append, List.length_singleton] at hcol
  have hputs : t.puts [0x08#8, 0x20#8, 0x08#8] =
      { t with cell := t.write (s.col + line.length) 0x20#8, col := s.col + line.length } := by
    have hback : t.col - 1 = s.col + line.length := by omega
    show ((t.put 0x08#8).put 0x20#8).put 0x08#8 = _
    rw [put_backspace t, hback, put_of_shown (c := 0x20#8) (by decide)]
    rfl
  have hrow : t.write (s.col + line.length) 0x20#8 s.row =
      update (t.cell s.row) (s.col + line.length) 0x20#8 := by
    rw [← h.row, write_row, h.row]
  rw [hputs]
  refine ⟨h.row, rfl, ?_, fun r hr => ?_, fun i hi => ?_, fun i hi => ?_⟩
  · dsimp only
    rw [hrow]
    exact (reads_append.mp h.shown).1.congr fun i _ hi => Function.update_of_ne hi.ne ..
  · exact (write_other (h.row ▸ hr) ..).trans (h.other r hr)
  · dsimp only
    rw [hrow, Function.update_of_ne (by omega), h.before i hi]
  · dsimp only
    rw [hrow]
    rcases eq_or_ne i (s.col + line.length) with rfl | hne
    · exact .inr (Function.update_self ..)
    · rw [Function.update_of_ne hne]
      refine h.behind i ?_
      rw [List.length_append, List.length_singleton]
      omega

end Screen
end Microkernel
