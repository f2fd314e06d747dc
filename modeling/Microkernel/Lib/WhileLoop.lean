import Mathlib.Data.List.Chain
import Mathlib.Logic.Relation
import Mathlib.Tactic.Common

/-! # Loops by rounds

A `while` loop of a program need not end. It is run for a given number of rounds, which gives the states
in which its body was entered and, when it has ended by then, its result. What holds of every round count
is read off the relation between a round and the next.

* **`WhileLoop`, `run`** — a test, a body and an exit, and the loop run for some rounds.
* **`Comes`, `Ends`** — the states that it comes to, and the result it ends with, with no number of rounds
  in it; both are determined by the start.
* **`exists_mem_entered_iff`, `exists_result_iff`** — what the rounds show is what these say.
* **`exists_result_of_measure`, `result_eq_none_of_next`** — the rules for loops that end and for loops
  that do not.
-/

namespace Microkernel

universe u v

/-- A `while` loop over states `σ` with results `ρ`. -/
structure WhileLoop (σ : Type u) (ρ : Type v) where
  /-- The test before each round. -/
  test : σ → Bool
  /-- One round: leave the loop with a result, or go on. -/
  body : σ → ρ ⊕ σ
  /-- The result when the test fails. -/
  exit : σ → ρ

/-- What a number of rounds of a loop does. -/
structure Rounds (σ : Type u) (ρ : Type v) where
  /-- The states in which the body is entered, in order. -/
  entered : List σ
  /-- The result, `none` when the loop has not ended. -/
  result : Option ρ

namespace WhileLoop

variable {σ ρ : Type*} {L : WhileLoop σ ρ} {s s' t : σ} {n : ℕ} {r : ρ}

/-- The first `n` rounds of a loop, where the failing test counts as one. -/
def run (L : WhileLoop σ ρ) : ℕ → σ → Rounds σ ρ
  | 0, _ => ⟨[], none⟩
  | n + 1, s =>
      if L.test s then
        match L.body s with
        | .inl r => ⟨[s], some r⟩
        | .inr s' => ⟨s :: (L.run n s').entered, (L.run n s').result⟩
      else ⟨[], some (L.exit s)⟩

/-- The loop comes from one state to the next. -/
def Next (L : WhileLoop σ ρ) (s s' : σ) : Prop := L.test s = true ∧ L.body s = .inr s'

/-- The loop ends in a state with a result. -/
def Ends (L : WhileLoop σ ρ) (s : σ) (r : ρ) : Prop :=
  (L.test s = true ∧ L.body s = .inl r) ∨ (L.test s = false ∧ L.exit s = r)

/-- The states that the loop comes to. -/
def Comes (L : WhileLoop σ ρ) : σ → σ → Prop := Relation.ReflTransGen L.Next

/-! ### One round -/

/-- A loop whose test fails ends at once with its exit value. -/
theorem run_exit (h : L.test s = false) (n : ℕ) : L.run (n + 1) s = ⟨[], some (L.exit s)⟩ := by
  rw [run, if_neg (by rw [h]; exact Bool.false_ne_true)]

/-- A body that leaves gives its result after one entry. -/
theorem run_leave (h : L.test s = true) (hb : L.body s = .inl r) (n : ℕ) :
    L.run (n + 1) s = ⟨[s], some r⟩ := by
  rw [run, if_pos h, hb]

/-- A body that goes on is entered once, and the loop runs on from the next state. -/
theorem run_next (h : L.Next s s') (n : ℕ) :
    L.run (n + 1) s = ⟨s :: (L.run n s').entered, (L.run n s').result⟩ := by
  rw [run, if_pos h.1, h.2]

/-- A state ends the loop or has a next one. -/
theorem ends_or_next (L : WhileLoop σ ρ) (s : σ) : (∃ r, L.Ends s r) ∨ ∃ s', L.Next s s' := by
  rcases ht : L.test s with _ | _
  · exact .inl ⟨_, .inr ⟨ht, rfl⟩⟩
  rcases hb : L.body s with r | s'
  · exact .inl ⟨r, .inl ⟨ht, hb⟩⟩
  · exact .inr ⟨s', ht, hb⟩

/-- A loop at its end ends in one step. -/
theorem Ends.run (h : L.Ends s r) (n : ℕ) : (L.run (n + 1) s).result = some r := by
  rcases h with ⟨ht, hb⟩ | ⟨ht, rfl⟩
  · rw [run_leave ht hb]
  · rw [run_exit ht]

/-! ### All rounds -/

/-- **The entered states** are the ones that the loop comes to and that pass the test. -/
theorem exists_mem_entered_iff : (∃ n, t ∈ (L.run n s).entered) ↔ L.Comes s t ∧ L.test t = true := by
  constructor
  · rintro ⟨n, hn⟩
    induction n generalizing s with
    | zero => exact absurd hn List.not_mem_nil
    | succ n ih =>
      rcases ht : L.test s with _ | _
      · rw [run_exit ht] at hn
        exact absurd hn List.not_mem_nil
      rcases hb : L.body s with r | s'
      · rw [run_leave ht hb, List.mem_singleton] at hn
        subst hn
        exact ⟨.refl, ht⟩
      · rw [run_next ⟨ht, hb⟩, List.mem_cons] at hn
        rcases hn with rfl | hn
        · exact ⟨.refl, ht⟩
        · exact ⟨.head ⟨ht, hb⟩ (ih hn).1, (ih hn).2⟩
  · rintro ⟨hc, ht⟩
    induction hc using Relation.ReflTransGen.head_induction_on with
    | refl =>
      refine ⟨1, ?_⟩
      rcases hb : L.body t with r | s'
      · rw [run_leave ht hb]
        exact List.mem_cons_self
      · rw [run_next ⟨ht, hb⟩]
        exact List.mem_cons_self
    | head h _ ih =>
      obtain ⟨n, hn⟩ := ih
      exact ⟨n + 1, by rw [run_next h]; exact List.mem_cons_of_mem _ hn⟩

/-- **The results** are the ones with which the loop ends in a state it comes to. -/
theorem exists_result_iff : (∃ n, (L.run n s).result = some r) ↔ ∃ t, L.Comes s t ∧ L.Ends t r := by
  constructor
  · rintro ⟨n, hn⟩
    induction n generalizing s with
    | zero => exact absurd hn (Option.some_ne_none r).symm
    | succ n ih =>
      rcases ends_or_next L s with ⟨r', he⟩ | ⟨s', hs⟩
      · rw [he.run, Option.some_inj] at hn
        exact ⟨s, .refl, hn ▸ he⟩
      · rw [run_next hs] at hn
        obtain ⟨t, hc, he⟩ := ih hn
        exact ⟨t, .head hs hc, he⟩
  · rintro ⟨t, hc, he⟩
    induction hc using Relation.ReflTransGen.head_induction_on with
    | refl => exact ⟨1, he.run 0⟩
    | head h _ ih =>
      obtain ⟨n, hn⟩ := ih
      exact ⟨n + 1, by rw [run_next h]; exact hn⟩

/-- **The rounds come in order**: each entered state is the next of the one before it. -/
theorem isChain_entered (L : WhileLoop σ ρ) (n : ℕ) (s : σ) : (L.run n s).entered.IsChain L.Next := by
  suffices h : (L.run n s).entered = [] ∨
      ∃ l, (L.run n s).entered = s :: l ∧ (s :: l).IsChain L.Next by
    rcases h with h | ⟨l, h, hl⟩
    · rw [h]
      exact .nil
    · rwa [h]
  induction n generalizing s with
  | zero => exact .inl rfl
  | succ n ih =>
    rcases ht : L.test s with _ | _
    · exact .inl (by rw [run_exit ht])
    rcases hb : L.body s with r | s'
    · exact .inr ⟨[], by rw [run_leave ht hb], .singleton s⟩
    · refine .inr ⟨_, by rw [run_next ⟨ht, hb⟩], ?_⟩
      rcases ih s' with h | ⟨l, h, hl⟩
      · rw [h]
        exact .singleton s
      · rw [h]
        exact .cons_cons ⟨ht, hb⟩ hl

/-- Two states that the loop enters one after the other are found side by side. -/
theorem exists_entered_append (hc : L.Comes s t) (ht : L.Next t s') (hs' : L.test s' = true) :
    ∃ n l l', (L.run n s).entered = l ++ t :: s' :: l' := by
  induction hc using Relation.ReflTransGen.head_induction_on with
  | refl =>
    obtain ⟨l', hl'⟩ : ∃ l', (L.run 1 s').entered = s' :: l' := by
      rcases hb : L.body s' with r | u
      · exact ⟨_, by rw [run_leave hs' hb]⟩
      · exact ⟨_, by rw [run_next ⟨hs', hb⟩]⟩
    exact ⟨2, [], l', by rw [run_next ht, hl']; rfl⟩
  | head h _ ih =>
    obtain ⟨n, l, l', hn⟩ := ih
    exact ⟨n + 1, _ :: l, l', by rw [run_next h, hn]; rfl⟩

/-- **Order rule**: what holds from each state that the loop comes to towards the next one, if that is
entered, and is transitive, holds along the rounds. -/
theorem pairwise_entered_iff {R : σ → σ → Prop} [IsTrans σ R] :
    (∀ n, (L.run n s).entered.Pairwise R) ↔
      ∀ t t', L.Comes s t → L.Next t t' → L.test t' = true → R t t' := by
  constructor
  · intro h t t' hc hn ht'
    obtain ⟨n, l, l', heq⟩ := exists_entered_append hc hn ht'
    have hpair := heq ▸ h n
    exact (List.pairwise_cons.mp (List.pairwise_append.mp hpair).2.1).1 t' List.mem_cons_self
  · intro h n
    refine List.isChain_iff_pairwise.mp ((isChain_entered L n s).imp_of_mem_imp fun t t' ht ht' hn => ?_)
    exact h t t' (exists_mem_entered_iff.mp ⟨n, ht⟩).1 hn (exists_mem_entered_iff.mp ⟨n, ht'⟩).2

/-- More rounds do not change a result. -/
theorem run_result_mono {m : ℕ} (h : (L.run n s).result = some r) (hm : n ≤ m) :
    L.run m s = L.run n s := by
  induction n generalizing s m with
  | zero => exact absurd h (Option.some_ne_none r).symm
  | succ n ih =>
    obtain ⟨m, rfl⟩ := Nat.exists_eq_add_of_le' (Nat.one_le_of_lt hm)
    rcases ht : L.test s with _ | _
    · rw [run_exit ht, run_exit ht]
    rcases hb : L.body s with r' | s'
    · rw [run_leave ht hb, run_leave ht hb]
    · rw [run_next ⟨ht, hb⟩] at h ⊢
      rw [run_next ⟨ht, hb⟩, ih h (by omega)]

/-- **Termination rule**: an invariant under which a measure falls in every round. -/
theorem exists_result_of_measure {I : σ → Prop} (m : σ → ℕ) (hs : I s)
    (hstep : ∀ s s', I s → L.Next s s' → I s' ∧ m s' < m s) :
    ∃ r, (L.run (m s + 1) s).result = some r := by
  induction hm : m s using Nat.strong_induction_on generalizing s with
  | _ k ih =>
    subst hm
    rcases ends_or_next L s with ⟨r, he⟩ | ⟨s', hs'⟩
    · exact ⟨r, he.run _⟩
    · obtain ⟨hI, hlt⟩ := hstep s s' hs hs'
      obtain ⟨r, hr⟩ := ih _ hlt hI rfl
      refine ⟨r, ?_⟩
      rw [run_next hs', run_result_mono hr hlt]
      exact hr

/-- **Counting rule**: such a measure bounds the number of rounds. -/
theorem length_entered_le {I : σ → Prop} (m : σ → ℕ) (hs : I s)
    (hpos : ∀ s, I s → L.test s = true → 0 < m s)
    (hstep : ∀ s s', I s → L.Next s s' → I s' ∧ m s' < m s) (n : ℕ) :
    (L.run n s).entered.length ≤ m s := by
  induction n generalizing s with
  | zero => exact Nat.zero_le _
  | succ n ih =>
    rcases ht : L.test s with _ | _
    · rw [run_exit ht]
      exact Nat.zero_le _
    rcases hb : L.body s with r | s'
    · rw [run_leave ht hb]
      exact hpos s hs ht
    · obtain ⟨hI, hlt⟩ := hstep s s' hs ⟨ht, hb⟩
      rw [run_next ⟨ht, hb⟩]
      exact (Nat.succ_le_succ (ih hI)).trans hlt

/-- **Divergence rule**: states from which the loop always goes on to another one of them. -/
theorem result_eq_none_of_next {I : σ → Prop} (hs : I s) (hstep : ∀ s, I s → ∃ s', L.Next s s' ∧ I s')
    (n : ℕ) : (L.run n s).result = none := by
  induction n generalizing s with
  | zero => rfl
  | succ n ih =>
    obtain ⟨s', hn, hI⟩ := hstep s hs
    rw [run_next hn]
    exact ih hI

/-- A loop that reports its results in another way. -/
def mapResult {ρ' : Type*} (f : ρ → ρ') (L : WhileLoop σ ρ) : WhileLoop σ ρ' :=
  ⟨L.test, fun s => (L.body s).map f id, fun s => f (L.exit s)⟩

/-- Mapping the result changes no state that the loop enters. -/
theorem run_mapResult {ρ' : Type*} (f : ρ → ρ') (L : WhileLoop σ ρ) (n : ℕ) (s : σ) :
    (L.mapResult f).run n s = ⟨(L.run n s).entered, (L.run n s).result.map f⟩ := by
  induction n generalizing s with
  | zero => rfl
  | succ n ih =>
    rcases ht : L.test s with _ | _
    · rw [run_exit ht, run_exit (show (L.mapResult f).test s = false from ht)]
      rfl
    rcases hb : L.body s with r | s'
    · have hb' : (L.mapResult f).body s = .inl (f r) := congrArg (Sum.map f id) hb
      rw [run_leave ht hb, run_leave (show (L.mapResult f).test s = true from ht) hb']
      rfl
    · have hb' : (L.mapResult f).body s = .inr s' := congrArg (Sum.map f id) hb
      rw [run_next ⟨ht, hb⟩, run_next ⟨show (L.mapResult f).test s = true from ht, hb'⟩, ih]

/-- A state that the next one comes to. -/
theorem Comes.head (h : L.Next s s') (h' : L.Comes s' t) : L.Comes s t := Relation.ReflTransGen.head h h'

/-- A state has one next state. -/
theorem Next.unique (h : L.Next s t) (h' : L.Next s s') : t = s' :=
  Sum.inr.inj (h.2.symm.trans h'.2)

/-- Of two states that the loop comes to, one comes to the other. -/
theorem Comes.total (h : L.Comes s t) (h' : L.Comes s s') : L.Comes t s' ∨ L.Comes s' t :=
  Relation.ReflTransGen.total_of_right_unique (fun _ _ _ h h' => h.unique h') h h'

/-- A state has the results of the states that it comes to. -/
theorem Comes.exists_result_iff (h : L.Comes s t) :
    (∃ n, (L.run n s).result = some r) ↔ ∃ n, (L.run n t).result = some r := by
  induction h using Relation.ReflTransGen.head_induction_on with
  | refl => exact Iff.rfl
  | head h _ ih =>
    rw [← ih]
    constructor
    · rintro ⟨n, hn⟩
      cases n with
      | zero => exact absurd hn (Option.some_ne_none r).symm
      | succ n => exact ⟨n, by rwa [run_next h] at hn⟩
    · rintro ⟨n, hn⟩
      exact ⟨n + 1, by rwa [run_next h]⟩

/-- **Invariant rule.** -/
theorem Comes.invariant {I : σ → Prop} (h : L.Comes s t) (hs : I s)
    (hstep : ∀ s s', I s → L.Next s s' → I s') : I t := by
  induction h with
  | refl => exact hs
  | tail _ h ih => exact hstep _ _ ih h

end WhileLoop

end Microkernel
