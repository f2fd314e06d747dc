import Mathlib.Algebra.Ring.Nat
import Mathlib.Data.List.Sort
import Mathlib.Data.List.TakeWhile
import Mathlib.Order.Basic

/-! # Ordered lists of disjoint half-open intervals

A list of records that each own a half-open interval `[lo a, hi a)` of a linear order, in ascending
order and pairwise disjoint. This is what a registry of address ranges denotes, whatever structure
it is stored in: where a new interval goes, what a removal leaves and which interval holds a point
are all determined by the list.

* **`Separated`** — such a list, with the lemmas on a concatenation and on an element in front.
* **`Separated.insert_between`** — an interval that overlaps none has one place in the list.
* **`findAt`** — the interval with a point in it.
* **`Tiles`** — a list whose intervals leave no gap from one bound to another.
-/

namespace Microkernel

namespace IntervalList

variable {κ α : Type*} [LinearOrder α] (lo hi : κ → α)

/-- Two half-open intervals share a point (for non-empty intervals). -/
def Overlaps (a b : κ) : Prop := lo a < hi b ∧ lo b < hi a

instance (a b : κ) : Decidable (Overlaps lo hi a b) := inferInstanceAs (Decidable (_ ∧ _))

/-- For non-empty intervals, overlapping is having a point in common: the larger start. -/
theorem overlaps_iff_exists {a b : κ} (ha : lo a < hi a) (hb : lo b < hi b) :
    Overlaps lo hi a b ↔ ∃ p, (lo a ≤ p ∧ p < hi a) ∧ lo b ≤ p ∧ p < hi b := by
  constructor
  · rintro ⟨hab, hba⟩
    exact ⟨max (lo a) (lo b), ⟨le_max_left _ _, max_lt ha hba⟩, le_max_right _ _, max_lt hab hb⟩
  · rintro ⟨p, ⟨hap, hpa⟩, hbp, hpb⟩
    exact ⟨lt_of_le_of_lt hap hpb, lt_of_le_of_lt hbp hpa⟩

/-- Non-empty intervals in ascending order, each ending before the next starts. -/
structure Separated (l : List κ) : Prop where
  /-- No interval is empty. -/
  nonempty : ∀ a ∈ l, lo a < hi a
  /-- An earlier interval ends before a later one starts. -/
  ordered : l.Pairwise (fun a b => hi a ≤ lo b)

variable {lo hi}

/-- The empty list is separated. -/
theorem separated_nil : Separated lo hi ([] : List κ) := ⟨by simp, List.Pairwise.nil⟩

/-- A sublist of a separated list is separated. -/
theorem Separated.sublist {l l' : List κ} (h : Separated lo hi l) (hs : l'.Sublist l) :
    Separated lo hi l' :=
  ⟨fun a ha => h.nonempty a (hs.subset ha), h.ordered.sublist hs⟩

/-- A concatenation is separated when both halves are and the first lies below the second. -/
theorem separated_append {l₁ l₂ : List κ} :
    Separated lo hi (l₁ ++ l₂) ↔
      Separated lo hi l₁ ∧ Separated lo hi l₂ ∧ ∀ a ∈ l₁, ∀ b ∈ l₂, hi a ≤ lo b := by
  constructor
  · intro h
    have hord := List.pairwise_append.mp h.ordered
    exact ⟨h.sublist (List.sublist_append_left _ _), h.sublist (List.sublist_append_right _ _),
      hord.2.2⟩
  · rintro ⟨h₁, h₂, h⟩
    refine ⟨fun a ha => ?_, List.pairwise_append.mpr ⟨h₁.ordered, h₂.ordered, h⟩⟩
    rcases List.mem_append.mp ha with ha | ha
    exacts [h₁.nonempty a ha, h₂.nonempty a ha]

/-- The case of one key in front. -/
theorem separated_cons {a : κ} {l : List κ} :
    Separated lo hi (a :: l) ↔ lo a < hi a ∧ Separated lo hi l ∧ ∀ b ∈ l, hi a ≤ lo b := by
  rw [← List.singleton_append, separated_append]
  constructor
  · rintro ⟨h₁, h₂, h⟩
    exact ⟨h₁.nonempty a (by simp), h₂, h a (by simp)⟩
  · rintro ⟨ha, h₂, h⟩
    exact ⟨⟨by simpa using ha, List.pairwise_singleton _ _⟩, h₂, by simpa using h⟩

/-- Intervals in the order of their starts that are non-empty and do not overlap are separated. -/
theorem separated_of_sorted {l : List κ} (hne : ∀ a ∈ l, lo a < hi a)
    (hsorted : l.Pairwise (fun a b => lo a ≤ lo b))
    (hno : l.Pairwise (fun a b => ¬ Overlaps lo hi a b)) : Separated lo hi l := by
  refine ⟨hne, (hsorted.and hno).imp_of_mem fun {a b} _ hb hab => ?_⟩
  by_contra hlt
  exact hab.2 ⟨lt_of_le_of_lt hab.1 (hne b hb), not_le.mp hlt⟩

/-- An interval that starts in front of a member and does not overlap it, overlaps nothing behind it. -/
theorem Separated.not_overlaps_of_lt {l₁ l₂ : List κ} {a x : κ} (h : Separated lo hi (l₁ ++ a :: l₂))
    (hno : ¬ Overlaps lo hi x a) (hlt : lo x < lo a) : ∀ b ∈ l₂, ¬ Overlaps lo hi x b := by
  obtain ⟨-, hal, -⟩ := separated_append.mp h
  obtain ⟨ha, -, hbehind⟩ := separated_cons.mp hal
  have hend : hi x ≤ lo a := by
    by_contra hover
    exact hno ⟨hlt.trans ha, not_le.mp hover⟩
  intro b hb hover
  exact absurd hover.2 (not_lt.mpr (hend.trans (ha.le.trans (hbehind b hb))))

/-- An interval that does not start in front of a member overlaps nothing in front of that member. -/
theorem Separated.not_overlaps_of_le {l₁ l₂ : List κ} {a x : κ} (h : Separated lo hi (l₁ ++ a :: l₂))
    (hle : lo a ≤ lo x) : ∀ b ∈ l₁, ¬ Overlaps lo hi x b := by
  obtain ⟨-, -, hfront⟩ := separated_append.mp h
  intro b hb hover
  exact absurd hover.1 (not_lt.mpr ((hfront b hb a List.mem_cons_self).trans hle))

/-- Starts are strictly ascending. -/
theorem Separated.lo_lt {l : List κ} (h : Separated lo hi l) :
    l.Pairwise (fun a b => lo a < lo b) := by
  refine h.ordered.imp_of_mem fun {a b} ha _ hab => ?_
  exact lt_of_lt_of_le (h.nonempty a ha) hab

/-- Two members at different places do not overlap. -/
theorem Separated.not_overlaps {l : List κ} (h : Separated lo hi l) :
    l.Pairwise (fun a b => ¬ Overlaps lo hi a b) :=
  h.ordered.imp fun hab hov => absurd hov.2 (not_lt.mpr hab)

/-- A separated list has no duplicates. -/
theorem Separated.nodup {l : List κ} (h : Separated lo hi l) : l.Nodup :=
  h.lo_lt.imp fun hab heq => absurd hab (by simp [heq])

/-- Two members that hold the same point are the same. -/
theorem Separated.eq_of_mem_of_mem {l : List κ} (h : Separated lo hi l) {a b : κ} (ha : a ∈ l)
    (hb : b ∈ l) {p q : α} (hap : lo a ≤ p) (hpa : p < hi a) (hbq : lo b ≤ q) (hqb : q < hi b)
    (hpq : p = q) : a = b := by
  subst hpq
  induction l with
  | nil => simp at ha
  | cons c l ih =>
      obtain ⟨-, hl, hc⟩ := separated_cons.mp h
      rcases List.mem_cons.mp ha with hac | hal <;> rcases List.mem_cons.mp hb with hbc | hbl
      · rw [hac, hbc]
      · rw [hac] at hpa
        exact absurd (lt_of_lt_of_le hpa (hc b hbl)) (not_lt.mpr hbq)
      · rw [hbc] at hqb
        exact absurd (lt_of_lt_of_le hqb (hc a hal)) (not_lt.mpr hap)
      · exact ih hl hal hbl

/-- Two members with the same start are the same. -/
theorem Separated.eq_of_lo_eq {l : List κ} (h : Separated lo hi l) {a b : κ} (ha : a ∈ l)
    (hb : b ∈ l) (hab : lo a = lo b) : a = b :=
  h.eq_of_mem_of_mem ha hb le_rfl (h.nonempty a ha) le_rfl (h.nonempty b hb) hab

/-! ### Insertion -/

/-- An interval that overlaps no member may be put between the members that start before it and
those that do not. -/
theorem Separated.insert_between {l₁ l₂ : List κ} {x : κ} (h : Separated lo hi (l₁ ++ l₂))
    (hx : lo x < hi x) (hno : ∀ a ∈ l₁ ++ l₂, ¬ Overlaps lo hi x a)
    (h₁ : ∀ a ∈ l₁, lo a ≤ lo x) (h₂ : ∀ a ∈ l₂, lo x ≤ lo a) :
    Separated lo hi (l₁ ++ x :: l₂) := by
  obtain ⟨hl₁, hl₂, h₁₂⟩ := separated_append.mp h
  have hbelow : ∀ a ∈ l₁, hi a ≤ lo x := by
    intro a ha
    by_contra hlt
    refine hno a (by simp [ha]) ⟨not_le.mp hlt, ?_⟩
    exact lt_of_le_of_lt (h₁ a ha) hx
  have habove : ∀ a ∈ l₂, hi x ≤ lo a := by
    intro a ha
    by_contra hlt
    refine hno a (by simp [ha]) ⟨?_, not_le.mp hlt⟩
    exact lt_of_le_of_lt (h₂ a ha) (hl₂.nonempty a ha)
  refine separated_append.mpr ⟨hl₁, separated_cons.mpr ⟨hx, hl₂, habove⟩, ?_⟩
  intro a ha b hb
  rcases List.mem_cons.mp hb with rfl | hb
  exacts [hbelow a ha, h₁₂ a ha b hb]

/-- A separated list is determined by its members. -/
theorem Separated.eq_of_mem_iff {l l' : List κ} (h : Separated lo hi l) (h' : Separated lo hi l')
    (hmem : ∀ a, a ∈ l ↔ a ∈ l') : l = l' := by
  refine ((List.perm_ext_iff_of_nodup h.nodup h'.nodup).mpr hmem).eq_of_pairwise ?_
    h.lo_lt h'.lo_lt
  intro a b _ _ hab hba
  exact absurd (hab.trans hba) (lt_irrefl _)

/-! ### Lookup -/

/-- The member whose interval holds `p`. -/
def findAt (lo hi : κ → α) (l : List κ) (p : α) : Option κ :=
  l.find? (fun a => decide (lo a ≤ p ∧ p < hi a))

/-- In a separated list, lookup returns a member exactly when that member holds the point. -/
theorem Separated.findAt_eq_some_iff {l : List κ} (h : Separated lo hi l) {p : α} {a : κ} :
    findAt lo hi l p = some a ↔ a ∈ l ∧ lo a ≤ p ∧ p < hi a := by
  constructor
  · intro hf
    exact ⟨List.mem_of_find?_eq_some hf, by simpa using List.find?_some hf⟩
  · rintro ⟨ha, hlo, hhi⟩
    cases hf : findAt lo hi l p with
    | none => exact absurd (List.find?_eq_none.mp hf a ha) (by simp [hlo, hhi])
    | some b =>
        have hb := List.mem_of_find?_eq_some hf
        have hbp : lo b ≤ p ∧ p < hi b := by simpa using List.find?_some hf
        rw [h.eq_of_mem_of_mem ha hb hlo hhi hbp.1 hbp.2 rfl]

/-- Lookup fails exactly when no member holds the point. -/
theorem findAt_eq_none_iff {l : List κ} {p : α} :
    findAt lo hi l p = none ↔ ∀ a ∈ l, ¬ (lo a ≤ p ∧ p < hi a) := by
  simp [findAt, List.find?_eq_none]

/-! ### Tilings -/

/-- The intervals of the list follow each other without a gap from `a` to `e`. -/
def Tiles {κ α : Type*} (lo hi : κ → α) : α → List κ → α → Prop
  | a, [], e => a = e
  | a, b :: l, e => lo b = a ∧ Tiles lo hi (hi b) l e

omit [LinearOrder α] in
/-- A tiling splits at any point of its list, at the address the two parts share. -/
theorem tiles_append {a e : α} {l₁ l₂ : List κ} :
    Tiles lo hi a (l₁ ++ l₂) e ↔ ∃ m, Tiles lo hi a l₁ m ∧ Tiles lo hi m l₂ e := by
  induction l₁ generalizing a with
  | nil => simp [Tiles]
  | cons b l₁ ih =>
      simp only [List.cons_append, Tiles, ih]
      exact ⟨fun ⟨hb, m, h₁, h₂⟩ => ⟨m, ⟨hb, h₁⟩, h₂⟩, fun ⟨m, ⟨hb, h₁⟩, h₂⟩ => ⟨hb, m, h₁, h₂⟩⟩

omit [LinearOrder α] in
/-- A tiling around one of its intervals. -/
theorem tiles_middle {a e : α} {l₁ l₂ : List κ} {b : κ} :
    Tiles lo hi a (l₁ ++ b :: l₂) e ↔ Tiles lo hi a l₁ (lo b) ∧ Tiles lo hi (hi b) l₂ e := by
  rw [tiles_append]
  constructor
  · rintro ⟨m, h₁, rfl, h₂⟩
    exact ⟨h₁, h₂⟩
  · exact fun ⟨h₁, h₂⟩ => ⟨_, h₁, rfl, h₂⟩

/-- A tiling goes upwards. -/
theorem Tiles.le {a e : α} {l : List κ} (h : Tiles lo hi a l e) (hle : ∀ b ∈ l, lo b ≤ hi b) :
    a ≤ e := by
  induction l generalizing a with
  | nil => exact le_of_eq h
  | cons b l ih =>
      obtain ⟨rfl, h⟩ := h
      exact (hle b (by simp)).trans (ih h fun c hc => hle c (by simp [hc]))

/-- The intervals of a tiling lie inside what is tiled. -/
theorem Tiles.bounds {a e : α} {l : List κ} (h : Tiles lo hi a l e) (hle : ∀ b ∈ l, lo b ≤ hi b)
    {b : κ} (hb : b ∈ l) : a ≤ lo b ∧ hi b ≤ e := by
  obtain ⟨l₁, l₂, rfl⟩ := List.append_of_mem hb
  obtain ⟨h₁, h₂⟩ := tiles_middle.mp h
  exact ⟨h₁.le fun c hc => hle c (by simp [hc]), h₂.le fun c hc => hle c (by simp [hc])⟩

/-- The non-empty intervals of a tiling are in order and disjoint. -/
theorem Tiles.separated {a e : α} {l : List κ} (h : Tiles lo hi a l e) (hlt : ∀ b ∈ l, lo b < hi b) :
    Separated lo hi l := by
  induction l generalizing a with
  | nil => exact separated_nil
  | cons b l ih =>
      have hl : ∀ c ∈ l, lo c < hi c := fun c hc => hlt c (by simp [hc])
      refine separated_cons.mpr ⟨hlt b (by simp), ih h.2 hl, fun c hc => ?_⟩
      exact (h.2.bounds (fun c hc => (hl c hc).le) hc).1

/-- A tiling of an interval of numbers by non-empty intervals has no more members than the interval
has numbers. -/
theorem Tiles.length_le {κ : Type*} {lo hi : κ → ℕ} {a e : ℕ} {l : List κ} (h : Tiles lo hi a l e)
    (hlt : ∀ b ∈ l, lo b < hi b) : a + l.length ≤ e := by
  induction l generalizing a with
  | nil => exact le_of_eq h
  | cons b l ih =>
      obtain ⟨rfl, h⟩ := h
      have hb := hlt b (by simp)
      have hl := ih h fun c hc => hlt c (by simp [hc])
      simp only [List.length_cons]
      omega

/-- The lengths of the intervals of a tiling add up to what is tiled. -/
theorem Tiles.add_sum_sub {κ : Type*} {lo hi : κ → ℕ} {a e : ℕ} {l : List κ} (h : Tiles lo hi a l e)
    (hle : ∀ b ∈ l, lo b ≤ hi b) : a + (l.map fun b => hi b - lo b).sum = e := by
  induction l generalizing a with
  | nil => exact h
  | cons b l ih =>
      obtain ⟨rfl, h⟩ := h
      have hb := hle b (by simp)
      have hl := ih h fun c hc => hle c (by simp [hc])
      simp only [List.map_cons, List.sum_cons]
      omega

end IntervalList

end Microkernel
