import Microkernel.Vma.Area

/-! # Refinement of the registry within room

A backend may serve the registry only as long as few areas are registered. The relation to the registry is
carried from call to call, so that a caller can reason about the registry alone.

* **`RegistryRefinement`** — the relation between the state of a backend and the registry, with what each
  call does to both.
* **`RegistryRefinement.within`** — a backend that serves the registry serves it within any room.

The maple tree is the backend that needs this: it serves the registry up to its tenth area.
-/

namespace Microkernel.Vma

/-- **A backend that serves the registry** as long as every `add` meets fewer than `room` areas: related
states answer a call alike and stay related. -/
structure RegistryRefinement {σ : Type} (B : VmaOps σ) (room : ℕ) where
  /-- What the data of the backend stand for. -/
  Rel : σ → AreaSet → Prop
  init : ∀ s, Rel (B.init s) .empty
  step : ∀ s S call, Rel s S →
    (∀ start stop flags name, call = .add start stop flags name → S.areas.length < room) →
    ∃ s' S' answer, B.call s call = some (s', answer) ∧
      AreaSet.machine.step S call = some (S', answer) ∧ Rel s' S'

namespace RegistryRefinement

variable {σ : Type} {B : VmaOps σ} {room : ℕ} (R : RegistryRefinement B room) {s : σ} {S : AreaSet}

/-- An `add` with room. -/
theorem add (h : R.Rel s S) (hroom : S.areas.length < room) (start stop flags : U32)
    (name : NamePtr) :
    ∃ s', B.add s start stop flags name = some (s', (S.add ⟨start, stop, flags, name⟩).2) ∧
      R.Rel s' (S.add ⟨start, stop, flags, name⟩).1 := by
  obtain ⟨s', S', answer, hcall, hstep, h'⟩ := R.step s S (.add start stop flags name) h
    fun _ _ _ _ _ => hroom
  obtain ⟨rfl, rfl⟩ := Prod.mk.inj (Option.some.inj hstep)
  obtain ⟨⟨t, r⟩, hadd, heq⟩ := Option.map_eq_some_iff.mp hcall
  obtain ⟨rfl, hr⟩ := Prod.mk.inj heq
  obtain rfl := VmaAnswer.status.inj hr
  exact ⟨t, hadd, h'⟩

/-- A `remove`. -/
theorem remove (h : R.Rel s S) (start : U32) :
    ∃ s', B.remove s start = some (s', (S.remove start).2) ∧ R.Rel s' (S.remove start).1 := by
  obtain ⟨s', S', answer, hcall, hstep, h'⟩ := R.step s S (.remove start) h
    fun _ _ _ _ heq => by cases heq
  obtain ⟨rfl, rfl⟩ := Prod.mk.inj (Option.some.inj hstep)
  obtain ⟨⟨t, r⟩, hremove, heq⟩ := Option.map_eq_some_iff.mp hcall
  obtain ⟨rfl, hr⟩ := Prod.mk.inj heq
  obtain rfl := VmaAnswer.status.inj hr
  exact ⟨t, hremove, h'⟩

/-- A `find`. -/
theorem find (h : R.Rel s S) (addr : U32) : B.find s addr = some (S.find addr) := by
  obtain ⟨s', S', answer, hcall, hstep, -⟩ := R.step s S (.find addr) h
    fun _ _ _ _ heq => by cases heq
  obtain ⟨-, rfl⟩ := Prod.mk.inj (Option.some.inj hstep)
  obtain ⟨a, hfind, heq⟩ := Option.map_eq_some_iff.mp hcall
  rw [hfind, VmaAnswer.area.inj (Prod.mk.inj heq).2]

/-- The `count`. -/
theorem count (h : R.Rel s S) : B.count s = S.areas.length := by
  obtain ⟨s', S', answer, hcall, hstep, -⟩ := R.step s S .count h fun _ _ _ _ heq => by cases heq
  obtain ⟨-, rfl⟩ := Prod.mk.inj (Option.some.inj hstep)
  exact VmaAnswer.count.inj (Prod.mk.inj (Option.some.inj hcall)).2

end RegistryRefinement

/-- A backend that refines the registry serves it in any room: what a state stands for is what the calls
that led to it left in the registry. -/
def VmaOps.Refines.within {σ : Type} {B : VmaOps σ} (h : B.Refines) (room : ℕ) :
    RegistryRefinement B room where
  Rel s S := ∃ s₀ calls answers, (B.machine s₀).run calls = some (s, answers) ∧
    AreaSet.machine.run calls = some (S, answers)
  init s := ⟨s, [], [], rfl, rfl⟩
  step := by
    rintro s S call ⟨s₀, calls, answers, hB, hS⟩ -
    obtain ⟨s', S', answers', hB', hS'⟩ := h s₀ (calls ++ [call])
    obtain ⟨o, ho, hos⟩ := Machine.run_concat hB hB'
    obtain ⟨o', ho', hos'⟩ := Machine.run_concat hS hS'
    rw [hos] at hos'
    obtain ⟨-, hsame⟩ := List.append_inj hos' rfl
    obtain rfl := List.singleton_inj.mp hsame
    exact ⟨s', S', o, ho, ho', s₀, calls ++ [call], answers', hB', hS'⟩

end Microkernel.Vma
