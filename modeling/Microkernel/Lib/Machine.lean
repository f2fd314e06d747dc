import Mathlib.Data.List.Basic

/-! # Machines and their runs

A component that is called again and again: a call on a state either does not return or gives the next
state and an answer. What is known of one call is lifted to whole runs by the rules of this module.

* **`Machine`, `run`, `runFrom`** — the component, and its runs with their answers.
* **`Reachable`, `ReachableVia`** — the states that some run ends in, or some run whose calls meet a
  condition on the state they are made in.
* **`runFrom_invariant`** — what every call keeps holds after every run, and every run returns.
* **`runFrom_simulation`, `runFrom_trace_of`** — related machines give the same answers, and an abstract
  state follows a run by its calls and answers.
-/

namespace Microkernel

universe u v w

/-! ### Deterministic machines -/

/-- A deterministic machine: a start state and, for every call, the next state with an answer, or
`none` when the call does not return. -/
structure Machine (σ : Type u) (ι : Type v) (ο : Type w) where
  /-- The state before the first call. -/
  init : σ
  /-- One call. -/
  step : σ → ι → Option (σ × ο)

namespace Machine

variable {σ τ ι ο : Type*}

/-- The calls `is` made in order from `s`: the final state and the answers, or `none` as soon as one
call does not return. -/
def runFrom (M : Machine σ ι ο) : σ → List ι → Option (σ × List ο)
  | s, [] => some (s, [])
  | s, i :: is =>
      (M.step s i).bind fun r => (M.runFrom r.1 is).map fun q => (q.1, r.2 :: q.2)

/-- A run from the start state. -/
def run (M : Machine σ ι ο) (is : List ι) : Option (σ × List ο) := M.runFrom M.init is

/-- The empty run stays where it is and gives no outputs. -/
@[simp] theorem runFrom_nil (M : Machine σ ι ο) (s : σ) : M.runFrom s [] = some (s, []) := rfl

/-- A run whose first call returns continues from the state that call left. -/
theorem runFrom_cons_of_step {M : Machine σ ι ο} {s t : σ} {i : ι} {o : ο}
    (h : M.step s i = some (t, o)) (is : List ι) :
    M.runFrom s (i :: is) = (M.runFrom t is).map (fun q => (q.1, o :: q.2)) := by
  rw [runFrom, h, Option.bind_some]

/-- A run of one call more. -/
theorem run_concat {M : Machine σ ι ο} {is : List ι} {i : ι} {s t : σ} {os os' : List ο}
    (h : M.run is = some (s, os)) (h' : M.run (is ++ [i]) = some (t, os')) :
    ∃ o, M.step s i = some (t, o) ∧ os' = os ++ [o] := by
  unfold run at h h'
  generalize M.init = s₀ at h h'
  induction is generalizing s₀ os os' with
  | nil =>
      obtain ⟨rfl, rfl⟩ := Prod.mk.inj (Option.some.inj h)
      obtain ⟨r, hr, hrest⟩ := Option.bind_eq_some_iff.mp h'
      obtain ⟨q, hq, hqt⟩ := Option.map_eq_some_iff.mp hrest
      obtain rfl := Option.some.inj hq
      obtain ⟨rfl, rfl⟩ := Prod.mk.inj hqt
      exact ⟨r.2, hr, rfl⟩
  | cons j is ih =>
      obtain ⟨r, hr, hrest⟩ := Option.bind_eq_some_iff.mp h
      obtain ⟨r', hr', hrest'⟩ := Option.bind_eq_some_iff.mp h'
      obtain rfl := Option.some.inj (hr.symm.trans hr')
      obtain ⟨q, hq, hqs⟩ := Option.map_eq_some_iff.mp hrest
      obtain ⟨q', hq', hqs'⟩ := Option.map_eq_some_iff.mp hrest'
      obtain ⟨rfl, rfl⟩ := Prod.mk.inj hqs
      obtain ⟨rfl, rfl⟩ := Prod.mk.inj hqs'
      obtain ⟨o, ho, hos⟩ := ih r.1 hq hq'
      exact ⟨o, ho, by rw [hos, List.cons_append]⟩

/-- A run goes on with one call more. -/
theorem run_append_singleton {M : Machine σ ι ο} {is : List ι} {i : ι} {s t : σ} {os : List ο} {o : ο}
    (h : M.run is = some (s, os)) (h' : M.step s i = some (t, o)) :
    M.run (is ++ [i]) = some (t, os ++ [o]) := by
  unfold run at h ⊢
  generalize M.init = s₀ at h ⊢
  induction is generalizing s₀ os with
  | nil =>
      obtain ⟨rfl, rfl⟩ := Prod.mk.inj (Option.some.inj h)
      rw [List.nil_append, runFrom_cons_of_step h']
      rfl
  | cons j is ih =>
      obtain ⟨r, hr, hrest⟩ := Option.bind_eq_some_iff.mp h
      obtain ⟨q, hq, hqs⟩ := Option.map_eq_some_iff.mp hrest
      obtain ⟨rfl, rfl⟩ := Prod.mk.inj hqs
      rw [List.cons_append, runFrom, hr, Option.bind_some, ih r.1 hq]
      rfl

/-- A state some run from the start state ends in. -/
def Reachable (M : Machine σ ι ο) (s : σ) : Prop := ∃ is os, M.run is = some (s, os)

/-- **Invariant rule.** If from every state of `I` each call returns into `I`, every run from a
state of `I` returns and ends in `I`. -/
theorem runFrom_invariant {M : Machine σ ι ο} {I : σ → Prop}
    (hstep : ∀ s i, I s → ∃ t o, M.step s i = some (t, o) ∧ I t) (is : List ι) :
    ∀ s, I s → ∃ t os, M.runFrom s is = some (t, os) ∧ I t := by
  induction is with
  | nil => exact fun s hs => ⟨s, [], rfl, hs⟩
  | cons i is ih =>
      intro s hs
      obtain ⟨t, o, ht, hIt⟩ := hstep s i hs
      obtain ⟨u, os, hu, hIu⟩ := ih t hIt
      exact ⟨u, o :: os, by rw [runFrom_cons_of_step ht, hu]; rfl, hIu⟩

/-- The invariant rule for runs from the start state. -/
theorem run_invariant {M : Machine σ ι ο} {I : σ → Prop} (hinit : I M.init)
    (hstep : ∀ s i, I s → ∃ t o, M.step s i = some (t, o) ∧ I t) (is : List ι) :
    ∃ t os, M.run is = some (t, os) ∧ I t :=
  runFrom_invariant hstep is M.init hinit

/-- Every reachable state satisfies an invariant of the machine. -/
theorem Reachable.invariant {M : Machine σ ι ο} {I : σ → Prop} (hinit : I M.init)
    (hstep : ∀ s i, I s → ∃ t o, M.step s i = some (t, o) ∧ I t) {s : σ} (h : M.Reachable s) :
    I s := by
  obtain ⟨is, os, hs⟩ := h
  obtain ⟨t, os', ht, hI⟩ := run_invariant hinit hstep is
  rw [hs] at ht
  obtain ⟨rfl, -⟩ : s = t ∧ os = os' := by simpa using ht
  exact hI

/-- A state some run from the start state ends in whose every call meets the condition `C` in the state
it is made. -/
inductive ReachableVia (M : Machine σ ι ο) (C : σ → ι → Prop) : σ → Prop
  | init : ReachableVia M C M.init
  | step {s t : σ} {i : ι} {o : ο} :
      ReachableVia M C s → C s i → M.step s i = some (t, o) → ReachableVia M C t

/-- Every state that is reached through calls that meet the condition satisfies an invariant that these
calls keep. -/
theorem ReachableVia.invariant {M : Machine σ ι ο} {C : σ → ι → Prop} {I : σ → Prop}
    (hinit : I M.init) (hstep : ∀ s t i o, I s → C s i → M.step s i = some (t, o) → I t) {s : σ}
    (h : M.ReachableVia C s) : I s := by
  induction h with
  | init => exact hinit
  | step _ hC hs ih => exact hstep _ _ _ _ ih hC hs

/-- The state after the calls, when each of them passes a check in the state it is made. -/
def runChecked (M : Machine σ ι ο) (check : σ → ι → Bool) : σ → List ι → Option σ
  | s, [] => some s
  | s, i :: is => if check s i then (M.step s i).bind fun r => M.runChecked check r.1 is else none

/-- **Checked runs.** A run whose every call passes a check that gives the condition `C` leads to a state
that is reached via `C`. -/
theorem ReachableVia.of_runChecked {M : Machine σ ι ο} {C : σ → ι → Prop} {check : σ → ι → Bool}
    (hcheck : ∀ s i, M.ReachableVia C s → check s i = true → C s i) {is : List ι} {s t : σ}
    (hs : M.ReachableVia C s) (hrun : M.runChecked check s is = some t) : M.ReachableVia C t := by
  induction is generalizing s with
  | nil =>
      obtain rfl := Option.some.inj hrun
      exact hs
  | cons i is ih =>
      rw [runChecked] at hrun
      by_cases hc : check s i = true
      · rw [if_pos hc] at hrun
        obtain ⟨r, hstep, hrest⟩ := Option.bind_eq_some_iff.mp hrun
        exact ih (.step hs (hcheck s i hs hc) hstep) hrest
      · rw [if_neg hc] at hrun
        cases hrun

/-- Each of the calls meets the condition `C` in the state it is made. -/
def Meets (M : Machine σ ι ο) (C : σ → ι → Prop) : σ → List ι → Prop
  | _, [] => True
  | s, i :: is => C s i ∧ ∀ t o, M.step s i = some (t, o) → M.Meets C t is

/-- The first calls of a list. -/
theorem Meets.of_append {M : Machine σ ι ο} {C : σ → ι → Prop} {is js : List ι} {s : σ}
    (h : M.Meets C s (is ++ js)) : M.Meets C s is := by
  induction is generalizing s with
  | nil => trivial
  | cons i is ih => exact ⟨h.1, fun t o ht => ih (h.2 t o ht)⟩

/-- The call behind a run. -/
theorem Meets.last {M : Machine σ ι ο} {C : σ → ι → Prop} {is : List ι} {i : ι} {s t : σ} {os : List ο}
    (h : M.Meets C s (is ++ [i])) (hrun : M.runFrom s is = some (t, os)) : C t i := by
  induction is generalizing s os with
  | nil =>
      obtain ⟨rfl, -⟩ := Prod.mk.inj (Option.some.inj hrun)
      exact h.1
  | cons j is ih =>
      obtain ⟨r, hr, hrest⟩ := Option.bind_eq_some_iff.mp hrun
      obtain ⟨q, hq, hqt⟩ := Option.map_eq_some_iff.mp hrest
      obtain ⟨rfl, -⟩ := Prod.mk.inj hqt
      exact ih (h.2 r.1 r.2 hr) hq

/-- Calls of which each meets the condition wherever an invariant holds that it keeps. -/
theorem Meets.of_invariant {M : Machine σ ι ο} {C : σ → ι → Prop} {I : σ → Prop} {K : ι → Prop}
    (hstep : ∀ s i, I s → K i → C s i ∧ ∀ t o, M.step s i = some (t, o) → I t) (is : List ι)
    (hK : ∀ i ∈ is, K i) {s : σ} (hs : I s) : M.Meets C s is := by
  induction is generalizing s with
  | nil => trivial
  | cons i is ih =>
      obtain ⟨hC, hnext⟩ := hstep s i hs (hK i List.mem_cons_self)
      exact ⟨hC, fun t o ht => ih (fun j hj => hK j (List.mem_cons_of_mem i hj)) (hnext t o ht)⟩

/-- A state that is reached through calls of some kind is reached. -/
theorem ReachableVia.reachable {M : Machine σ ι ο} {C : σ → ι → Prop} {s : σ} (h : M.ReachableVia C s) :
    M.Reachable s := by
  induction h with
  | init => exact ⟨[], [], rfl⟩
  | @step s t i o _ _ hstep ih =>
      obtain ⟨is, os, hrun⟩ := ih
      exact ⟨is ++ [i], os ++ [o], run_append_singleton hrun hstep⟩

/-- **Simulation rule.** If related states answer every call alike and stay related, the two
machines answer every sequence of calls alike. -/
theorem runFrom_simulation {M : Machine σ ι ο} {N : Machine τ ι ο} {R : σ → τ → Prop}
    (hstep : ∀ s t i, R s t →
      ∃ s' t' o, M.step s i = some (s', o) ∧ N.step t i = some (t', o) ∧ R s' t')
    (is : List ι) : ∀ s t, R s t →
      ∃ s' t' os, M.runFrom s is = some (s', os) ∧ N.runFrom t is = some (t', os) ∧ R s' t' := by
  induction is with
  | nil => exact fun s t h => ⟨s, t, [], rfl, rfl, h⟩
  | cons i is ih =>
      intro s t h
      obtain ⟨s₁, t₁, o, hs, ht, hR⟩ := hstep s t i h
      obtain ⟨s₂, t₂, os, hs₂, ht₂, hR₂⟩ := ih s₁ t₁ hR
      refine ⟨s₂, t₂, o :: os, ?_, ?_, hR₂⟩
      · rw [runFrom_cons_of_step hs, hs₂]; rfl
      · rw [runFrom_cons_of_step ht, ht₂]; rfl

/-- **Trace rule.** If a relation to an abstract state is kept when the abstract state is updated from
each call of the kind `C` and its answer, it holds after a run of such calls for the updates made in
order. -/
theorem runFrom_trace_of {M : Machine σ ι ο} {R : σ → τ → Prop} {C : ι → Prop} (f : τ → ι × ο → τ)
    (hstep : ∀ s t i, C i → R s t → ∃ s' o, M.step s i = some (s', o) ∧ R s' (f t (i, o)))
    (is : List ι) (hC : ∀ i ∈ is, C i) : ∀ s t, R s t →
      ∃ s' os, M.runFrom s is = some (s', os) ∧ R s' ((is.zip os).foldl f t) := by
  induction is with
  | nil => exact fun s t h => ⟨s, [], rfl, h⟩
  | cons i is ih =>
      intro s t h
      obtain ⟨s₁, o, hs, hR⟩ := hstep s t i (hC i List.mem_cons_self) h
      obtain ⟨s₂, os, hs₂, hR₂⟩ :=
        ih (fun j hj => hC j (List.mem_cons_of_mem i hj)) s₁ (f t (i, o)) hR
      refine ⟨s₂, o :: os, ?_, hR₂⟩
      rw [runFrom_cons_of_step hs, hs₂]
      rfl

/-- The trace rule for calls of every kind. -/
theorem runFrom_trace {M : Machine σ ι ο} {R : σ → τ → Prop} (f : τ → ι × ο → τ)
    (hstep : ∀ s t i, R s t → ∃ s' o, M.step s i = some (s', o) ∧ R s' (f t (i, o)))
    (is : List ι) : ∀ s t, R s t →
      ∃ s' os, M.runFrom s is = some (s', os) ∧ R s' ((is.zip os).foldl f t) :=
  runFrom_trace_of (C := fun _ => True) f (fun s t i _ => hstep s t i) is fun _ _ => trivial

end Machine
end Microkernel
