import Mathlib.Data.Option.Basic
import Mathlib.Logic.Function.Basic

/-! # Two-level maps

A partial map whose keys are pairs: a directory sends the first half to a table, and the table sends the
second half to a value. As long as different first halves have different tables, writing one entry
changes one value, linking an empty table changes none, and unlinking tables drops what they held.

* **`lookup`** — the map that a directory and its tables hold.
* **`lookup_write`, `lookup_link`** — the two writes.
* **`Injective`** — different first halves have different tables. It is kept by linking a table that is
  new, and by unlinking.
-/

namespace Microkernel.TwoLevelMap

open Function (update)

variable {ι κ τ β : Type*} {dir : ι → Option τ} {tab : τ → κ → Option β} {i j : ι} {k l : κ} {t : τ}

/-- The value of a key. -/
def lookup (dir : ι → Option τ) (tab : τ → κ → Option β) (i : ι) (k : κ) : Option β :=
  (dir i).bind fun t => tab t k

/-- Different directory entries have different tables. -/
def Injective (dir : ι → Option τ) : Prop := ∀ i j t, dir i = some t → dir j = some t → i = j

/-- Without a table there is no entry. -/
theorem lookup_of_none (h : dir i = none) (k : κ) : lookup dir tab i k = none := by
  rw [lookup, h, Option.bind_none]

/-- With a table, the entry is that of the table. -/
theorem lookup_of_some (h : dir i = some t) (k : κ) : lookup dir tab i k = tab t k := by
  rw [lookup, h, Option.bind_some]

/-- Looking up in a map of the values. -/
theorem lookup_map {γ : Type*} (f : β → γ) (i : ι) (k : κ) :
    lookup dir (fun t l => (tab t l).map f) i k = (lookup dir tab i k).map f := by
  unfold lookup
  cases dir i with
  | none => rfl
  | some t => rfl

/-- **Writing an entry** of a table changes the value of one key. -/
theorem lookup_write [DecidableEq ι] [DecidableEq κ] (hinj : Injective dir) (hi : dir i = some t)
    {tab' : τ → κ → Option β} (hother : ∀ t', t' ≠ t → tab' t' = tab t')
    {v : Option β} (htab : ∀ l, tab' t l = if l = k then v else tab t l) (j : ι) (l : κ) :
    lookup dir tab' j l = if j = i ∧ l = k then v else lookup dir tab j l := by
  by_cases hj : dir j = some t
  · obtain rfl := hinj j i t hj hi
    rw [lookup_of_some hj, lookup_of_some hj, htab]
    simp
  · have hne : j ≠ i := by
      rintro rfl
      exact hj hi
    rw [if_neg fun h => hne h.1]
    unfold lookup
    cases hd : dir j with
    | none => rfl
    | some u =>
      have hu : u ≠ t := by
        rintro rfl
        exact hj hd
      rw [Option.bind_some, Option.bind_some, hother u hu]

/-- **Linking an empty table** at an empty directory entry changes no value. -/
theorem lookup_link [DecidableEq ι] (hi : dir i = none) (hfresh : ∀ j, dir j ≠ some t)
    {tab' : τ → κ → Option β} (hother : ∀ t', t' ≠ t → tab' t' = tab t')
    (hempty : tab' t k = none) (j : ι) :
    lookup (update dir i (some t)) tab' j k = lookup dir tab j k := by
  unfold lookup
  by_cases hj : j = i
  · subst hj
    rw [Function.update_self, hi, Option.bind_some, Option.bind_none, hempty]
  · rw [Function.update_of_ne hj]
    cases hd : dir j with
    | none => rfl
    | some u =>
      have hu : u ≠ t := by
        rintro rfl
        exact hfresh j hd
      rw [Option.bind_some, Option.bind_some, hother u hu]

/-- A table that is linked nowhere else keeps the directory injective. -/
theorem Injective.link [DecidableEq ι] (hinj : Injective dir) (hfresh : ∀ j, dir j ≠ some t) :
    Injective (update dir i (some t)) := by
  intro a b u ha hb
  by_cases hai : a = i <;> by_cases hbi : b = i
  · rw [hai, hbi]
  · subst hai
    rw [Function.update_self] at ha
    rw [Function.update_of_ne hbi] at hb
    obtain rfl := Option.some.inj ha
    exact absurd hb (hfresh b)
  · subst hbi
    rw [Function.update_self] at hb
    rw [Function.update_of_ne hai] at ha
    obtain rfl := Option.some.inj hb
    exact absurd ha (hfresh a)
  · rw [Function.update_of_ne hai] at ha
    rw [Function.update_of_ne hbi] at hb
    exact hinj a b u ha hb

/-- **Unlinking tables** keeps the directory injective. -/
theorem Injective.unlink (hinj : Injective dir) {dir' : ι → Option τ}
    (hsub : ∀ i t, dir' i = some t → dir i = some t) : Injective dir' :=
  fun a b u ha hb => hinj a b u (hsub a u ha) (hsub b u hb)

end Microkernel.TwoLevelMap
