import Mathlib.Order.Lattice
import Mathlib.Data.List.Basic

/-! # Chains of ranges

A range that is cut at ascending bounds, with an item in every piece: how a search tree node divides the
keys among its children. What is in the pieces is a list, and the lists of a chain follow each other.

* **`RangeChain`** — the chain, over any description of a piece.
* **`append_iff`, `middle_iff`** — cutting it at a piece, which is where a node is changed or split.
* **`exists_piece`, `locate`** — a point of the range lies in one piece, and the search for it by bounds
  finds that one.
* **`flatMap_eq`** — the list of the whole chain is that of its pieces in turn.
-/

namespace Microkernel

variable {α ι β : Type*} [LinearOrder α]

/-- **A chain of pieces** from `lo` to `hi`: an item of the list and its upper bound, and `P` holds of
the bounds of the piece, the item and the contents. -/
def RangeChain (P : α → α → ι → List β → Prop) : α → List (ι × α) → α → List β → Prop
  | lo, [], hi, vs => lo = hi ∧ vs = []
  | lo, e :: l, hi, vs => ∃ v w, P lo e.2 e.1 v ∧ RangeChain P e.2 l hi w ∧ vs = v ++ w

namespace RangeChain

variable {P Q : α → α → ι → List β → Prop} {l l₁ l₂ : List (ι × α)} {lo hi : α} {vs : List β}

omit [LinearOrder α] in
/-- A chain over a concatenation is two chains that meet, with their values in turn. -/
theorem append_iff : RangeChain P lo (l₁ ++ l₂) hi vs ↔
    ∃ m v w, RangeChain P lo l₁ m v ∧ RangeChain P m l₂ hi w ∧ vs = v ++ w := by
  induction l₁ generalizing lo vs with
  | nil =>
    constructor
    · exact fun h => ⟨lo, [], vs, ⟨rfl, rfl⟩, h, rfl⟩
    · rintro ⟨m, v, w, ⟨rfl, rfl⟩, h, rfl⟩
      exact h
  | cons e l₁ ih =>
    constructor
    · rintro ⟨v, w, he, h, rfl⟩
      obtain ⟨m, v₁, w₁, h₁, h₂, rfl⟩ := ih.mp h
      exact ⟨m, v ++ v₁, w₁, ⟨v, v₁, he, h₁, rfl⟩, h₂, (List.append_assoc ..).symm⟩
    · rintro ⟨m, v, w, ⟨v₁, w₁, he, h₁, rfl⟩, h₂, rfl⟩
      exact ⟨v₁, w₁ ++ w, he, ih.mpr ⟨m, w₁, w, h₁, h₂, rfl⟩, List.append_assoc ..⟩

omit [LinearOrder α] in
/-- A chain around one of its pieces. -/
theorem middle_iff {e : ι × α} : RangeChain P lo (l₁ ++ e :: l₂) hi vs ↔
    ∃ m v w u, RangeChain P lo l₁ m v ∧ P m e.2 e.1 w ∧ RangeChain P e.2 l₂ hi u ∧
      vs = v ++ (w ++ u) := by
  rw [append_iff]
  constructor
  · rintro ⟨m, v, -, h₁, ⟨w, u, he, h₂, rfl⟩, rfl⟩
    exact ⟨m, v, w, u, h₁, he, h₂, rfl⟩
  · rintro ⟨m, v, w, u, h₁, he, h₂, rfl⟩
    exact ⟨m, v, w ++ u, h₁, ⟨w, u, he, h₂, rfl⟩, rfl⟩

omit [LinearOrder α] in
/-- The last bound is the end. -/
theorem last_bound (h : RangeChain P lo l hi vs) {i : ℕ} {e : ι × α} (he : l[i]? = some e)
    (hi' : i + 1 = l.length) : e.2 = hi := by
  induction l generalizing lo vs i with
  | nil => simp at hi'
  | cons d l ih =>
    obtain ⟨v, w, -, h, -⟩ := h
    cases i with
    | zero =>
      obtain rfl : l = [] := List.eq_nil_of_length_eq_zero (by simpa using hi'.symm)
      obtain rfl : d = e := by simpa using he
      exact h.1
    | succ i => exact ih h (by simpa using he) (by simpa using hi')

omit [LinearOrder α] in
/-- The contents of a chain, when each item gives the contents of its piece. -/
theorem flatMap_eq {g : ι → List β} (h : RangeChain P lo l hi vs)
    (hP : ∀ a b i v, P a b i v → g i = v) : (l.flatMap fun e => g e.1) = vs := by
  induction l generalizing lo vs with
  | nil => exact h.2.symm
  | cons e l ih =>
    obtain ⟨v, w, he, h, rfl⟩ := h
    rw [List.flatMap_cons, hP _ _ _ _ he, ih h]

/-- A chain of non-empty ranges goes upwards. -/
theorem le (h : RangeChain P lo l hi vs) (hP : ∀ a b i v, P a b i v → a < b) : lo ≤ hi := by
  induction l generalizing lo vs with
  | nil => exact h.1.le
  | cons e l ih =>
    obtain ⟨v, w, he, h, -⟩ := h
    exact (hP _ _ _ _ he).le.trans (ih h)

/-- A chain of non-empty links that has a link ends above where it starts. -/
theorem lt (h : RangeChain P lo l hi vs) (hP : ∀ a b i v, P a b i v → a < b) (hl : l ≠ []) :
    lo < hi := by
  cases l with
  | nil => exact absurd rfl hl
  | cons e l =>
    obtain ⟨v, w, he, h, -⟩ := h
    exact lt_of_lt_of_le (hP _ _ _ _ he) (h.le hP)

/-- Every bound lies in the range. -/
theorem bounds (h : RangeChain P lo l hi vs) (hP : ∀ a b i v, P a b i v → a < b) {e : ι × α}
    (he : e ∈ l) : lo < e.2 ∧ e.2 ≤ hi := by
  obtain ⟨l₁, l₂, rfl⟩ := List.append_of_mem he
  obtain ⟨m, v, w, u, h₁, hm, h₂, -⟩ := middle_iff.mp h
  exact ⟨lt_of_le_of_lt (h₁.le hP) (hP _ _ _ _ hm), h₂.le hP⟩

/-- The piece with an element. -/
theorem exists_piece (h : RangeChain P lo l hi vs) (hP : ∀ a b i v, P a b i v → a < b) {x : β}
    (hx : x ∈ vs) : ∃ a e v, e ∈ l ∧ P a e.2 e.1 v ∧ x ∈ v ∧ lo ≤ a ∧ e.2 ≤ hi := by
  induction l generalizing lo vs with
  | nil =>
    rw [h.2] at hx
    exact absurd hx List.not_mem_nil
  | cons e l ih =>
    obtain ⟨v, w, he, h, rfl⟩ := h
    rcases List.mem_append.mp hx with hx | hx
    · exact ⟨lo, e, v, List.mem_cons_self, he, hx, le_rfl, h.le hP⟩
    · obtain ⟨a, d, u, hd, hPd, hxu, hle, hhi⟩ := ih h hx
      exact ⟨a, d, u, List.mem_cons_of_mem e hd, hPd, hxu, (hP _ _ _ _ he).le.trans hle, hhi⟩

/-- Another property of the pieces. -/
theorem imp (h : RangeChain P lo l hi vs) (hP : ∀ a b i v, P a b i v → a < b)
    (hPQ : ∀ a b i v, (∀ x ∈ v, x ∈ vs) → lo ≤ a → b ≤ hi → (i, b) ∈ l → P a b i v → Q a b i v) :
    RangeChain Q lo l hi vs := by
  induction l generalizing lo vs with
  | nil => exact h
  | cons e l ih =>
    obtain ⟨v, w, he, h, rfl⟩ := h
    refine ⟨v, w, ?_, ih h fun a b i u hu ha hb hi => ?_, rfl⟩
    · exact hPQ _ _ _ _ (fun x hx => List.mem_append_left w hx) le_rfl (h.le hP) List.mem_cons_self he
    · exact hPQ a b i u (fun x hx => List.mem_append_right v (hu x hx))
        ((hP _ _ _ _ he).le.trans ha) hb (List.mem_cons_of_mem e hi)

/-- **The piece with a point**: the bounds in front of it are at the point or below. -/
theorem locate (h : RangeChain P lo l hi vs) {x : α} (hlo : lo ≤ x) (hhi : x < hi) :
    ∃ l₁ e l₂ m v w u, l = l₁ ++ e :: l₂ ∧ RangeChain P lo l₁ m v ∧ P m e.2 e.1 w ∧
      RangeChain P e.2 l₂ hi u ∧ vs = v ++ (w ++ u) ∧ (∀ d ∈ l₁, d.2 ≤ x) ∧ m ≤ x ∧ x < e.2 := by
  induction l generalizing lo vs with
  | nil => exact absurd (lt_of_le_of_lt hlo hhi) (by rw [h.1]; exact lt_irrefl hi)
  | cons e l ih =>
    obtain ⟨v, w, he, h, rfl⟩ := h
    rcases lt_or_ge x e.2 with hx | hx
    · exact ⟨[], e, l, lo, [], v, w, rfl, ⟨rfl, rfl⟩, he, h, rfl, fun d hd => absurd hd List.not_mem_nil,
        hlo, hx⟩
    · obtain ⟨l₁, d, l₂, m, v₁, w₁, u, rfl, h₁, hd, h₂, rfl, hall, hm, hxd⟩ := ih h hx
      refine ⟨e :: l₁, d, l₂, m, v ++ v₁, w₁, u, rfl, ⟨v, v₁, he, h₁, rfl⟩, hd, h₂,
        (List.append_assoc ..).symm, fun c hc => ?_, hm, hxd⟩
      rcases List.mem_cons.mp hc with rfl | hc
      exacts [hx, hall c hc]

end RangeChain

end Microkernel
