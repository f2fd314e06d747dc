import Microkernel.Vma.Area
import Mathlib.Logic.Function.Basic
import Mathlib.Data.List.Range

/-! # The sorted-array backend

`vma_sorted_array.c`: a static array of areas in ascending order of start, searched by two binary
searches and kept sorted by two shifting loops. The array is a function of the index; only the
entries below `count` are in use, the others hold stale data.

* **`SaState`** — the array and the counter.
* **`saLowerBound`, `saUpperBound`** — the two searches. One counts the starts below an address, the other
  those at or below it; each is right for an array whose list is in order.
* **`saAdd`, `saRemove`, `saFind`** — the operations, with the loops that shift the entries above them.
-/

namespace Microkernel.Vma

open Function (update)

/-- The static data `g_areas` and `g_count`. -/
structure SaState where
  /-- `g_areas`. -/
  areas : ℕ → VmArea
  /-- `g_count`. -/
  count : ℕ

/-! ### Binary search -/

/-- The loop of the two binary searches on `[left, right)`: `below` is the comparison that sends the
search to the right half. -/
def saBound (a : ℕ → VmArea) (below : U32 → Prop) [DecidablePred below] (left right : ℕ) : ℕ :=
  if left < right then
    let mid := left + (right - left) / 2
    if below (a mid).start then saBound a below (mid + 1) right
    else saBound a below left mid
  else left
termination_by right - left

/-- `sa_lower_bound(target)`: the first index whose start is `>= target`. -/
def saLowerBound (s : SaState) (target : U32) : ℕ := saBound s.areas (· < target) 0 s.count

/-- `sa_upper_bound(target)`: the first index whose start is `> target`. -/
def saUpperBound (s : SaState) (target : U32) : ℕ := saBound s.areas (· ≤ target) 0 s.count

/-! ### Operations -/

/-- `sa_init`: clear every entry. -/
def saInit (s : SaState) : SaState where
  areas i := if i < vmaMaxAreas then .zero else s.areas i
  count := 0

/-- `for (i = g_count; i > pos; i--) g_areas[i] = g_areas[i - 1]`. -/
def saShiftUp (pos : ℕ) : ℕ → (ℕ → VmArea) → ℕ → VmArea
  | 0, a => a
  | i + 1, a => if i + 1 > pos then saShiftUp pos i (update a (i + 1) (a i)) else a

/-- `n` rounds of `for (i = pos; …; i++) g_areas[i] = g_areas[i + 1]`. -/
def saShiftDown (pos : ℕ) : ℕ → (ℕ → VmArea) → ℕ → VmArea
  | 0, a => a
  | n + 1, a => saShiftDown (pos + 1) n (update a pos (a (pos + 1)))

/-- The overlap loop of `sa_add`: some entry below `g_count` meets `[start, end)`. -/
def saOverlapsAny (s : SaState) (start stop : U32) : Bool :=
  (List.range s.count).any fun i =>
    decide (start < (s.areas i).stop ∧ (s.areas i).start < stop)

/-- `sa_add(start, end, flags, name)`. -/
def saAdd (s : SaState) (start stop flags : U32) (name : NamePtr) : SaState × Int :=
  if s.count ≥ vmaMaxAreas then (s, -1)
  else if start ≥ stop then (s, -1)
  else if ¬ start.PageAligned ∨ ¬ stop.PageAligned then (s, -1)
  else if saOverlapsAny s start stop then (s, -1)
  else
    -- the entries from the place on move up by one
    let pos := saLowerBound s start
    let a := saShiftUp pos s.count s.areas
    ({ areas := update a pos ⟨start, stop, flags, name⟩, count := s.count + 1 }, 0)

/-- `sa_remove(start)`. -/
def saRemove (s : SaState) (start : U32) : SaState × Int :=
  let pos := saLowerBound s start
  if pos = s.count ∨ (s.areas pos).start ≠ start then (s, -1)
  else ({ areas := saShiftDown pos (s.count - 1 - pos) s.areas, count := s.count - 1 }, 0)

/-- `sa_find(addr)`. -/
def saFind (s : SaState) (addr : U32) : Option VmArea :=
  if s.count = 0 then none
  else
    let idx := saUpperBound s addr
    if idx = 0 then none
    else
      -- the last area that begins at the address or before it
      let candidate := s.areas (idx - 1)
      if addr < candidate.stop then some candidate else none

/-- `sa_count()`. -/
def saCount (s : SaState) : ℕ := s.count

/-- `sa_ops`. -/
def saOps : VmaOps SaState where
  init := saInit
  add s start stop flags name := some (saAdd s start stop flags name)
  remove s start := some (saRemove s start)
  find s addr := some (saFind s addr)
  count := saCount

/-! ### What an array denotes -/

namespace SaState

/-- The areas in use, in index order: `g_areas[0..g_count)`. -/
def toList (s : SaState) : List VmArea := (List.range s.count).map s.areas

/-- The set of areas present. -/
def present (s : SaState) : Set VmArea := {a | ∃ i < s.count, s.areas i = a}

/-- As many areas as the counter says. -/
@[simp] theorem length_toList (s : SaState) : s.toList.length = s.count := by simp [toList]

/-- The areas are those in the places below the counter. -/
theorem mem_toList {s : SaState} {a : VmArea} : a ∈ s.toList ↔ ∃ i < s.count, s.areas i = a := by
  simp [toList]

/-- The list of a prefix of an array. -/
theorem toList_eq_append (s : SaState) {pos : ℕ} (h : pos ≤ s.count) :
    s.toList = (List.range pos).map s.areas ++
      (List.range (s.count - pos)).map (fun i => s.areas (pos + i)) := by
  obtain ⟨k, hk⟩ := Nat.exists_eq_add_of_le h
  rw [toList, hk, List.range_add, List.map_append, List.map_map, Nat.add_sub_cancel_left]
  rfl

end SaState

/-! ### The binary searches -/

/-- If `below` holds on a prefix of the entries exactly, the search finds where the prefix ends. -/
theorem saBound_spec (a : ℕ → VmArea) (below : U32 → Prop) [DecidablePred below] {n : ℕ}
    (hmono : ∀ i j, i < j → j < n → below (a j).start → below (a i).start) (left right : ℕ)
    (hr : right ≤ n) (hlr : left ≤ right) (hl : ∀ i < left, below (a i).start)
    (hge : ∀ i, right ≤ i → i < n → ¬ below (a i).start) :
    saBound a below left right ≤ n ∧ (∀ i < saBound a below left right, below (a i).start) ∧
      ∀ i, saBound a below left right ≤ i → i < n → ¬ below (a i).start := by
  fun_induction saBound a below left right with
  | case1 left right hlt mid hmid ih =>
      refine ih hr (by omega) (fun i hi => ?_) hge
      rcases Nat.lt_succ_iff_lt_or_eq.mp hi with hi | rfl
      · exact hmono i mid hi (by omega) hmid
      · exact hmid
  | case2 left right hlt mid hmid ih =>
      refine ih (by omega) (by omega) hl (fun i hi hin hb => hmid ?_)
      rcases Nat.lt_or_eq_of_le hi with hi | rfl
      · exact hmono mid i hi hin hb
      · exact hb
  | case3 left right hlt =>
      obtain rfl : left = right := by omega
      exact ⟨hr, hl, hge⟩

/-- Starts ascend with the index. -/
theorem start_lt_of_separated {s : SaState} (h : Separated s.toList) {i j : ℕ} (hij : i < j)
    (hj : j < s.count) : (s.areas i).start < (s.areas j).start := by
  have hp := List.pairwise_iff_getElem.mp h.lo_lt i j (by simpa using hij.trans hj)
    (by simpa using hj) hij
  simpa [SaState.toList, VmArea.lo, BitVec.lt_def] using hp

/-- `sa_lower_bound` cuts the array between the starts below `target` and the others. -/
theorem saLowerBound_spec {s : SaState} (h : Separated s.toList) (target : U32) :
    saLowerBound s target ≤ s.count ∧ (∀ i < saLowerBound s target, (s.areas i).start < target) ∧
      ∀ i, saLowerBound s target ≤ i → i < s.count → target ≤ (s.areas i).start := by
  obtain ⟨hle, hlt, hge⟩ := saBound_spec s.areas (· < target) (n := s.count)
    (fun i j hij hj hb => BitVec.lt_trans (start_lt_of_separated h hij hj) hb)
    0 s.count le_rfl (Nat.zero_le _) (by simp) (by omega)
  exact ⟨hle, hlt, fun i hi hin => BitVec.not_lt.mp (hge i hi hin)⟩

/-- `sa_upper_bound` cuts the array between the starts at most `target` and the others. -/
theorem saUpperBound_spec {s : SaState} (h : Separated s.toList) (target : U32) :
    saUpperBound s target ≤ s.count ∧ (∀ i < saUpperBound s target, (s.areas i).start ≤ target) ∧
      ∀ i, saUpperBound s target ≤ i → i < s.count → target < (s.areas i).start := by
  obtain ⟨hle, hlt, hge⟩ := saBound_spec s.areas (· ≤ target) (n := s.count)
    (fun i j hij hj hb => BitVec.le_trans (BitVec.le_of_lt (start_lt_of_separated h hij hj)) hb)
    0 s.count le_rfl (Nat.zero_le _) (by simp) (by omega)
  exact ⟨hle, hlt, fun i hi hin => BitVec.not_le.mp (hge i hi hin)⟩

/-! ### The shifting loops -/

/-- Shifting up moves the entries from `pos` on by one place. -/
theorem saShiftUp_apply (pos : ℕ) : ∀ (n : ℕ) (a : ℕ → VmArea) (i : ℕ),
    saShiftUp pos n a i = if pos < i ∧ i ≤ n then a (i - 1) else a i := by
  intro n
  induction n with
  | zero => intro a i; rw [saShiftUp, if_neg (by omega)]
  | succ n ih =>
      intro a i
      rw [saShiftUp]
      by_cases hpos : n + 1 > pos
      · rw [if_pos hpos, ih]
        by_cases hi : i = n + 1
        · subst hi
          rw [if_neg (by omega), if_pos (by omega), Function.update_self, Nat.add_sub_cancel]
        · by_cases hin : pos < i ∧ i ≤ n
          · rw [if_pos hin, if_pos (by omega), Function.update_of_ne (by omega)]
          · rw [if_neg hin, if_neg (by omega), Function.update_of_ne hi]
      · rw [if_neg hpos, if_neg (by omega)]

/-- Shifting down moves the `n` entries after `pos` by one place. -/
theorem saShiftDown_apply : ∀ (n pos : ℕ) (a : ℕ → VmArea) (i : ℕ),
    saShiftDown pos n a i = if pos ≤ i ∧ i < pos + n then a (i + 1) else a i := by
  intro n
  induction n with
  | zero => intro pos a i; rw [saShiftDown, if_neg (by omega)]
  | succ n ih =>
      intro pos a i
      rw [saShiftDown, ih]
      by_cases hi : i = pos
      · subst hi
        rw [if_neg (by omega), if_pos (by omega), Function.update_self]
      · by_cases hin : pos + 1 ≤ i ∧ i < pos + 1 + n
        · rw [if_pos hin, if_pos (by omega), Function.update_of_ne (by omega)]
        · rw [if_neg hin, if_neg (by omega), Function.update_of_ne hi]

end Microkernel.Vma
