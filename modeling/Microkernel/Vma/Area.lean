import Microkernel.Lib.IntervalList
import Microkernel.Lib.Machine
import Microkernel.Word

/-! # The VMA interface

`vm_area_t`, the backend table `vma_ops_t`, and the registry of address ranges that every backend
is meant to implement: a list of disjoint areas in address order. A backend refines the registry
when it answers every sequence of calls as the registry does.

* **`VmArea`, `VmaOps`** — an area and the table of operations, each of which may fail to end.
* **`AreaSet`** — the registry, an ordered list that carries its bound and its order as fields; `Admits`
  says when an area may be added.
* **`AreaSet.add`, `AreaSet.remove`** — what the calls do to it, with their answers.
* **`VmaOps.Refines`** — refinement: from `init` on all answers are those of the registry.
-/

namespace Microkernel.Vma

/-- A `const char*` of the VMA code: `NULL`, the address of a string (names are stored, never
copied), or, only inside the free list of the maple backend, the address of a pool entry. -/
inductive NamePtr where
  /-- `NULL`. -/
  | null
  /-- The address of a string. -/
  | str (addr : U32)
  /-- The address of entry `i` of a VMA pool, cast to `const char*`. -/
  | poolEntry (i : Nat)
  deriving DecidableEq, Repr

/-- `vm_area_t`: the range `[start, stop)`, its permission flags and its name. The source's `end` is
`stop` here. -/
structure VmArea where
  /-- First address of the area. -/
  start : U32
  /-- First address past the area. -/
  stop : U32
  /-- `VMA_READ | VMA_WRITE | VMA_EXEC`. -/
  flags : U32
  /-- Human-readable name. -/
  name : NamePtr
  deriving DecidableEq, Repr

namespace VmArea

/-- An area with every field zero, as `init` leaves unused entries. -/
def zero : VmArea := ⟨0#32, 0#32, 0#32, .null⟩

/-- The start of an area as a number. -/
def lo (a : VmArea) : ℕ := a.start.toNat

/-- The end of an area as a number. -/
def hi (a : VmArea) : ℕ := a.stop.toNat

/-- Two areas overlap: `a.start < b.end && b.start < a.end`. -/
abbrev Overlaps (a b : VmArea) : Prop := IntervalList.Overlaps lo hi a b

/-- The test the backends make, `start < b.end && b.start < end`, is overlap. -/
theorem overlaps_iff {a b : VmArea} : a.Overlaps b ↔ a.start < b.stop ∧ b.start < a.stop := by
  simp only [Overlaps, IntervalList.Overlaps, lo, hi, BitVec.lt_def]

/-- A valid range: non-empty and page-aligned at both ends. -/
def Valid (a : VmArea) : Prop := a.start < a.stop ∧ a.start.PageAligned ∧ a.stop.PageAligned

instance (a : VmArea) : Decidable a.Valid := inferInstanceAs (Decidable (_ ∧ _))

/-- A valid area is non-empty. -/
theorem Valid.lo_lt_hi {a : VmArea} (h : a.Valid) : a.lo < a.hi := h.1

/-- The area holds the address. -/
def Holds (a : VmArea) (addr : U32) : Prop := a.start ≤ addr ∧ addr < a.stop

instance (a : VmArea) (addr : U32) : Decidable (a.Holds addr) :=
  inferInstanceAs (Decidable (_ ∧ _))

/-- An address is in an area from its start on and before its end. -/
theorem holds_iff {a : VmArea} {addr : U32} :
    a.Holds addr ↔ a.lo ≤ addr.toNat ∧ addr.toNat < a.hi := Iff.rfl

/-- Two non-empty areas overlap exactly when some address is in both. -/
theorem overlaps_iff_exists_holds {a b : VmArea} (ha : a.start < a.stop) (hb : b.start < b.stop) :
    a.Overlaps b ↔ ∃ addr, a.Holds addr ∧ b.Holds addr := by
  rw [Overlaps, IntervalList.overlaps_iff_exists lo hi ha hb]
  constructor
  · rintro ⟨p, ⟨hap, hpa⟩, hbp, hpb⟩
    have hp : p < 2 ^ 32 := hpa.trans a.stop.isLt
    refine ⟨BitVec.ofNat 32 p, ?_, ?_⟩ <;> rw [holds_iff, BitVec.toNat_ofNat, Nat.mod_eq_of_lt hp]
    exacts [⟨hap, hpa⟩, ⟨hbp, hpb⟩]
  · rintro ⟨addr, ha, hb⟩
    exact ⟨addr.toNat, holds_iff.mp ha, holds_iff.mp hb⟩

end VmArea

/-- Areas in address order, non-empty and pairwise disjoint. -/
abbrev Separated (l : List VmArea) : Prop := IntervalList.Separated VmArea.lo VmArea.hi l

/-! ### The backend table -/

/-- `vma_ops_t`, without `dump`. Every operation takes the backend's state and returns it; `none`
stands for a loop that did not end. -/
structure VmaOps (σ : Type) where
  /-- `init`, run on whatever the static data held before. -/
  init : σ → σ
  /-- `add(start, end, flags, name)`: `0` on success, `-1` on failure. -/
  add : σ → U32 → U32 → U32 → NamePtr → Option (σ × Int)
  /-- `remove(start)`: `0` on success, `-1` if no area has that start. -/
  remove : σ → U32 → Option (σ × Int)
  /-- `find(addr)`: the area pointed to, or `none` for `NULL`. -/
  find : σ → U32 → Option (Option VmArea)
  /-- `count()`. -/
  count : σ → ℕ

/-- One call through the table. -/
inductive VmaCall where
  | add (start stop flags : U32) (name : NamePtr)
  | remove (start : U32)
  | find (addr : U32)
  | count
  deriving DecidableEq, Repr

/-- What a call returns. -/
inductive VmaAnswer where
  /-- The `0` or `-1` of `add` and `remove`. -/
  | status (r : Int)
  /-- The area `find` points to, or `NULL`. -/
  | area (a : Option VmArea)
  /-- The result of `count`. -/
  | count (n : ℕ)
  deriving DecidableEq, Repr

/-- Dispatch of one call. -/
def VmaOps.call {σ : Type} (B : VmaOps σ) (s : σ) : VmaCall → Option (σ × VmaAnswer)
  | .add start stop flags name => (B.add s start stop flags name).map fun r => (r.1, .status r.2)
  | .remove start => (B.remove s start).map fun r => (r.1, .status r.2)
  | .find addr => (B.find s addr).map fun a => (s, .area a)
  | .count => some (s, .count (B.count s))

/-- A backend as a machine that starts with `init`. -/
def VmaOps.machine {σ : Type} (B : VmaOps σ) (s₀ : σ) : Machine σ VmaCall VmaAnswer :=
  ⟨B.init s₀, B.call⟩

/-! ### The registry every backend implements -/

/-- `VMA_MAX_AREAS`, `RB_MAX_NODES` and `MAPLE_MAX_VMAS`. -/
def vmaMaxAreas : ℕ := 256

/-- The abstract registry: at most 256 areas, disjoint and in address order. -/
structure AreaSet where
  /-- The areas in ascending order. -/
  areas : List VmArea
  /-- They are non-empty, ascending and disjoint. -/
  separated : Separated areas
  /-- The capacity is respected. -/
  capacity : areas.length ≤ vmaMaxAreas

namespace AreaSet

/-- The registry with no area. -/
def empty : AreaSet := ⟨[], IntervalList.separated_nil, by simp⟩

/-- A new area is admitted when there is room, it is valid and it meets no area. -/
def Admits (S : AreaSet) (a : VmArea) : Prop :=
  S.areas.length < vmaMaxAreas ∧ a.Valid ∧ ∀ b ∈ S.areas, ¬ a.Overlaps b

instance (S : AreaSet) (a : VmArea) : Decidable (S.Admits a) :=
  inferInstanceAs (Decidable (_ ∧ _))

/-- The list with `a` put before the first area that does not start below it. -/
def insertList (l : List VmArea) (a : VmArea) : List VmArea :=
  l.takeWhile (fun b => decide (b.lo < a.lo)) ++
    a :: l.dropWhile (fun b => decide (b.lo < a.lo))

/-- The sorted insertion adds the area and loses none. -/
theorem mem_insertList {l : List VmArea} {a b : VmArea} :
    b ∈ insertList l a ↔ b = a ∨ b ∈ l := by
  conv_rhs => rw [← List.takeWhile_append_dropWhile (p := fun b => decide (b.lo < a.lo)) (l := l)]
  simp only [insertList, List.mem_append, List.mem_cons]
  tauto

/-- It makes the list longer by one. -/
theorem length_insertList (l : List VmArea) (a : VmArea) :
    (insertList l a).length = l.length + 1 := by
  conv_rhs => rw [← List.takeWhile_append_dropWhile (p := fun b => decide (b.lo < a.lo)) (l := l)]
  simp only [insertList, List.length_append, List.length_cons]
  omega

/-- In a separated list everything past the cut at `a` starts at or above `a`. -/
theorem lo_le_of_mem_dropWhile {l : List VmArea} (h : Separated l) {a b : VmArea}
    (hb : b ∈ l.dropWhile (fun b => decide (b.lo < a.lo))) : a.lo ≤ b.lo := by
  induction l with
  | nil => simp at hb
  | cons c l ih =>
      obtain ⟨hc, hl, hcl⟩ := IntervalList.separated_cons.mp h
      rw [List.dropWhile_cons] at hb
      split at hb
      · exact ih hl hb
      · rename_i hca
        have hca : a.lo ≤ c.lo := by simpa using hca
        rcases List.mem_cons.mp hb with rfl | hb
        · exact hca
        · exact le_trans (le_trans hca hc.le) (hcl b hb)

/-- Inserting an admitted area keeps the list separated. -/
theorem separated_insertList {l : List VmArea} (h : Separated l) {a : VmArea} (ha : a.Valid)
    (hno : ∀ b ∈ l, ¬ a.Overlaps b) : Separated (insertList l a) := by
  have hl := List.takeWhile_append_dropWhile (p := fun b => decide (b.lo < a.lo)) (l := l)
  refine IntervalList.Separated.insert_between (by rw [hl]; exact h) ha.lo_lt_hi
    (by rw [hl]; exact hno) ?_ (fun b hb => lo_le_of_mem_dropWhile h hb)
  intro b hb
  have hlt : b.lo < a.lo := by simpa using List.mem_takeWhile_imp hb
  exact hlt.le

/-- The registry with an admitted area added. -/
def insert (S : AreaSet) (a : VmArea) (h : S.Admits a) : AreaSet where
  areas := insertList S.areas a
  separated := separated_insertList S.separated h.2.1 h.2.2
  capacity := by rw [length_insertList]; exact h.1

/-- The registry without the area that starts at `start`. -/
def erase (S : AreaSet) (start : U32) : AreaSet where
  areas := S.areas.filter (fun a => decide (a.start ≠ start))
  separated := S.separated.sublist List.filter_sublist
  capacity := le_trans (List.length_filter_le _ _) S.capacity

/-- In a separated list only one area has a given start, so erasing it takes out that one. -/
theorem filter_start_ne {l₁ l₂ : List VmArea} {x : VmArea} (h : Separated (l₁ ++ x :: l₂)) :
    (l₁ ++ x :: l₂).filter (fun a => decide (a.start ≠ x.start)) = l₁ ++ l₂ := by
  obtain ⟨-, -, h₁⟩ := List.pairwise_append.mp h.lo_lt
  have h₂ := (List.pairwise_cons.mp (List.pairwise_append.mp h.lo_lt).2.1).1
  rw [List.filter_append, List.filter_cons_of_neg (by simp), List.filter_eq_self.mpr,
    List.filter_eq_self.mpr]
  · intro a ha
    have hlt := h₂ a ha
    exact decide_eq_true fun heq => by simp [VmArea.lo, heq] at hlt
  · intro a ha
    have hlt := h₁ a ha x (by simp)
    exact decide_eq_true fun heq => by simp [VmArea.lo, heq] at hlt

/-- `add` on the registry. -/
def add (S : AreaSet) (a : VmArea) : AreaSet × Int :=
  if h : S.Admits a then (S.insert a h, 0) else (S, -1)

/-- `remove` on the registry. -/
def remove (S : AreaSet) (start : U32) : AreaSet × Int :=
  if ∃ a ∈ S.areas, a.start = start then (S.erase start, 0) else (S, -1)

@[simp] theorem areas_insert (S : AreaSet) (a : VmArea) (h : S.Admits a) :
    (S.insert a h).areas = insertList S.areas a := rfl

@[simp] theorem areas_erase (S : AreaSet) (start : U32) :
    (S.erase start).areas = S.areas.filter (fun a => decide (a.start ≠ start)) := rfl

/-- An area that is admitted is added. -/
theorem add_of_admits {S : AreaSet} {a : VmArea} (h : S.Admits a) : S.add a = (S.insert a h, 0) :=
  dif_pos h

/-- Any other is refused, and nothing changes. -/
theorem add_of_not_admits {S : AreaSet} {a : VmArea} (h : ¬ S.Admits a) : S.add a = (S, -1) :=
  dif_neg h

/-- An area that is there is removed by its start. -/
theorem remove_of_mem {S : AreaSet} {a : VmArea} (h : a ∈ S.areas) :
    S.remove a.start = (S.erase a.start, 0) := if_pos ⟨a, h, rfl⟩

/-- A start that no area has is refused, and nothing changes. -/
theorem remove_of_forall_ne {S : AreaSet} {start : U32} (h : ∀ a ∈ S.areas, a.start ≠ start) :
    S.remove start = (S, -1) := if_neg fun ⟨a, ha, hs⟩ => h a ha hs

/-- `find` on the registry. -/
def find (S : AreaSet) (addr : U32) : Option VmArea :=
  IntervalList.findAt VmArea.lo VmArea.hi S.areas addr.toNat

/-- The registry as a machine. -/
def machine : Machine AreaSet VmaCall VmaAnswer where
  init := empty
  step S
    | .add start stop flags name =>
        let r := S.add ⟨start, stop, flags, name⟩
        some (r.1, .status r.2)
    | .remove start =>
        let r := S.remove start
        some (r.1, .status r.2)
    | .find addr => some (S, .area (S.find addr))
    | .count => some (S, .count S.areas.length)

/-- `find` returns an area exactly when it is registered and holds the address. -/
theorem find_eq_some_iff {S : AreaSet} {addr : U32} {a : VmArea} :
    S.find addr = some a ↔ a ∈ S.areas ∧ a.Holds addr := by
  rw [find, S.separated.findAt_eq_some_iff, VmArea.holds_iff]

/-- `find` fails exactly when no registered area holds the address. -/
theorem find_eq_none_iff {S : AreaSet} {addr : U32} :
    S.find addr = none ↔ ∀ a ∈ S.areas, ¬ a.Holds addr := by
  rw [find, IntervalList.findAt_eq_none_iff]
  simp only [VmArea.holds_iff]

end AreaSet

/-- **Refinement of the registry**: started by `init` on any data, the backend answers every
sequence of calls as the registry does. -/
def VmaOps.Refines {σ : Type} (B : VmaOps σ) : Prop :=
  ∀ (s₀ : σ) (calls : List VmaCall), ∃ s S answers,
    (B.machine s₀).run calls = some (s, answers) ∧ AreaSet.machine.run calls = some (S, answers)

/-- Two backends that refine the registry give the same answers. -/
theorem VmaOps.Refines.answers_eq {σ τ : Type} {B : VmaOps σ} {C : VmaOps τ} (hB : B.Refines)
    (hC : C.Refines) (s₀ : σ) (t₀ : τ) (calls : List VmaCall) :
    ∃ s t answers, (B.machine s₀).run calls = some (s, answers) ∧
      (C.machine t₀).run calls = some (t, answers) := by
  obtain ⟨s, S, as, hs, hS⟩ := hB s₀ calls
  obtain ⟨t, T, bs, ht, hT⟩ := hC t₀ calls
  rw [hS] at hT
  obtain ⟨-, rfl⟩ : S = T ∧ as = bs := by simpa using hT
  exact ⟨s, t, as, hs, ht⟩

end Microkernel.Vma
