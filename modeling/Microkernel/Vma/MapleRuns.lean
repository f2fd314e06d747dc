import Microkernel.Vma.MapleInsertions

/-! # Runs of the maple tree

The maple tree as a machine, with room for one key for each place of a leaf. Whatever the calls are, the
pools hold a tree after each of them; the areas end in the ranges of their leaves as long as every inserted
one stays in its leaf.

* **`AddStays`** — the condition on a call, on the state in which it is made.
* **`IsTree.call`** — the step: every call returns, also one that fails, and leaves a tree.
* **`mapleMachine_isTree`, `mapleMachine_isTree_tight`** — the runs, without the condition and with it.
* **`Stores.dump`** — `maple_dump` lists the stored areas in order.
-/

namespace Microkernel.Vma

open Function (update)

/-! ### The listing -/

/-- `dump_recursive(node)`: the areas it prints, in order. -/
def dumpRecursive (s : MapleState) : ℕ → ℕ → List ℕ
  | 0, _ => []
  | n + 1, node =>
      if (s.nodes node).isLeaf then
        (List.range (s.nodes node).nrEntries.toNat).filterMap (s.nodes node).slots
      else
        (List.range (s.nodes node).nrEntries.toNat).flatMap fun i =>
          match (s.nodes node).slots i with
          | none => []
          | some child => dumpRecursive s n child

/-- `maple_dump()`: the areas it prints, in order. -/
def mapleDump (s : MapleState) : List ℕ :=
  if s.count = 0 then []
  else
    match s.root with
    | none => []
    | some root => dumpRecursive s (mapleMaxNodes + 1) root

section Dump
variable {s : MapleState} {L : MapleLabels} {tight : Prop} {k height root lo hi n : ℕ} {par : Option ℕ}
  {vs free vfree : List ℕ}

/-- The numbers below the length of a list go through the list. -/
theorem flatMap_range_eq {α β : Type*} (l : List α) (f : ℕ → List β) (g : α → List β)
    (h : ∀ i a, l[i]? = some a → f i = g a) : (List.range l.length).flatMap f = l.flatMap g := by
  induction l using List.reverseRecOn with
  | nil => rfl
  | append_singleton l a ih =>
    rw [List.length_append, List.length_singleton, List.range_succ, List.flatMap_append,
      List.flatMap_append, List.flatMap_singleton, List.flatMap_singleton, h l.length a (by simp),
      ih fun i b hb => h i b ?_]
    rw [List.getElem?_append_left (List.getElem?_eq_some_iff.mp hb).1]
    exact hb

/-- **The listing of a tree** has its areas in order. -/
theorem MapleState.Subtree.dump (h : s.Subtree L tight k lo hi par n vs) {m : ℕ} (hm : k < m) :
    dumpRecursive s m n = vs := by
  induction k generalizing lo hi par n vs m with
  | zero =>
    obtain ⟨m, rfl⟩ := Nat.exists_eq_succ_of_ne_zero (by omega : m ≠ 0)
    have hentries := h.2.2.entries
    rw [dumpRecursive, if_pos hentries.isLeaf, hentries.nrEntries, List.length_map,
      List.filterMap_eq_flatMap_toList, flatMap_range_eq vs _ (fun v => [v]), List.flatMap_singleton']
    intro i v hv
    rw [(hentries.get (by rw [List.getElem?_map, hv]; rfl)).2]
    rfl
  | succ k ih =>
    obtain ⟨m, rfl⟩ := Nat.exists_eq_succ_of_ne_zero (by omega : m ≠ 0)
    obtain ⟨-, -, l, hchildren, hchain⟩ := h
    rw [dumpRecursive, if_neg (by rw [hchildren.isLeaf]; exact Bool.false_ne_true), hchildren.nrEntries,
      flatMap_range_eq l _ (fun e => dumpRecursive s m e.1), hchain.flatMap_eq fun a b c w hc => ih hc ?_]
    · omega
    · intro i e he
      rw [hchildren.child he]

/-- **`maple_dump` lists what is stored.** -/
theorem MapleState.Stores.dump (h : s.Stores L tight height root vs free vfree) : mapleDump s = vs := by
  rw [mapleDump]
  split
  · rename_i hcount
    have hle := h.length_le
    exact (List.eq_nil_of_length_eq_zero (by omega)).symm
  · rw [h.tree.root_eq]
    exact h.tree.subtree.dump (h.tree.height_lt.trans (Nat.lt_succ_self _))

end Dump

/-! ### Initialisation -/

/-- The free nodes after `node_pool_init`, from one on. -/
theorem nodePoolInit_chain (s : MapleState) {n i : ℕ} (hn : i + n + 1 = mapleMaxNodes) :
    NodeChain (nodePoolInit s).nodes (some i) (List.range' i (n + 1)) := by
  induction n generalizing i with
  | zero =>
    refine ⟨rfl, ?_⟩
    show (ite _ _ _ : MapleNode).parent = _
    rw [if_neg (by omega), if_pos (by omega)]
  | succ n ih =>
    refine ⟨rfl, ?_⟩
    have hparent : ((nodePoolInit s).nodes i).parent = some (i + 1) := by
      show (ite _ _ _ : MapleNode).parent = _
      rw [if_pos (by omega)]
    rw [hparent]
    exact ih (by omega)

/-- **An initialised pool** holds one empty leaf. -/
theorem mapleInit_stores (s : MapleState) (tight : Prop) :
    (mapleInit s).Stores (update (fun _ => none) 0 (some (0, 0))) tight 0 0 [] (List.range' 1 63)
      (List.range' 0 mapleMaxVmas) where
  tree := by
    refine ⟨rfl, ⟨Function.update_self .., rfl, ⟨⟨rfl, rfl, by simp, by simp⟩, by decide, by simp,
      IntervalList.separated_nil⟩⟩, ?_, List.nodup_range', fun n hn => ?_, fun n hn => ?_⟩
    · refine (nodePoolInit_chain s (n := 62) (i := 1) rfl).congr fun n hn => ?_
      have hn0 : n ≠ 0 := by
        have := List.mem_range'_1.mp hn
        omega
      show update (update (nodePoolInit s).nodes 0 _) 0 _ n = _
      rw [Function.update_of_ne hn0, Function.update_of_ne hn0]
    · have hn0 : n ≠ 0 := by
        have := List.mem_range'_1.mp hn
        omega
      rw [Function.update_of_ne hn0]
    · rcases hn with hn | hn
      · exact (List.mem_range'_1.mp hn).2
      · by_cases hn0 : n = 0
        · rw [hn0]
          decide
        · rw [Function.update_of_ne hn0] at hn
          exact absurd rfl hn
  chain := (mapleInit_oneLeaf s).chain
  nodup := List.nodup_range'
  total := by rw [List.length_range']; rfl
  length_le := Nat.le_refl 0

/-! ### The machine -/

/-- **The maple tree as a machine**, with room for one key for each place of a leaf. -/
def mapleMachine (s₀ : MapleState) : Machine MapleState VmaCall VmaAnswer :=
  ⟨mapleInit s₀, fun s call => (mapleCall mapleNodeSlots s call).toOption⟩

/-- **The condition on a call**: an `add` that passes the checks stays in the leaf for its start. -/
def MapleState.AddStays (s : MapleState) : VmaCall → Prop
  | .add start stop _ _ => s.PassesChecks start stop → s.StaysInLeaf start stop
  | _ => True

/-- The search for the first and that for the last address of an `add` come to the same leaf. -/
def MapleState.endsTogether (s : MapleState) : VmaCall → Bool
  | .add start stop _ _ =>
      match s.root with
      | none => false
      | some root =>
          let leafFor addr := (mapleDescend mapleNodeSlots s addr (mapleMaxNodes + 1) root).toOption
          decide (leafFor start = leafFor (stop - 1#32))
  | _ => true

section Machine
variable {s : MapleState} {tight : Prop}

/-- **One call** returns and leaves a tree. -/
theorem MapleState.IsTree.call (h : s.IsTree tight) (call : VmaCall) (hstay : tight → s.AddStays call) :
    ∃ s' a, mapleCall mapleNodeSlots s call = .ok (s', a) ∧ s'.IsTree tight := by
  obtain ⟨L, height, root, vs, free, vfree, hs⟩ := h
  cases call with
  | add start stop flags name =>
    obtain ⟨s', r, hres, hs'⟩ : ∃ s' r, mapleAdd mapleNodeSlots start stop flags name s = .ok (s', r) ∧
        s'.IsTree tight := by
      by_cases hpass : s.PassesChecks start stop
      · by_cases hplace : ¬ s.LeafFull start ∨ s.nodeFree ≠ none
        · obtain ⟨s', v, L', height', root', vs', free', vfree', hres, hs', -⟩ :=
            hs.add_inserts hpass hplace (fun ht => hstay ht hpass) flags name
          exact ⟨s', 0, hres, L', height', root', vs', free', vfree', hs'⟩
        · rw [not_or, not_not, not_not] at hplace
          obtain ⟨s', hres, -, hs'⟩ := hs.add_noNode hpass hplace.1 hplace.2 flags name
          exact ⟨s', -1, hres, L, height, root, vs, free, vfree, hs'⟩
      · exact ⟨s, -1, hs.tree.add_rejects hpass flags name, L, height, root, vs, free, vfree, hs⟩
    exact ⟨s', .status r, by rw [mapleCall, hres]; rfl, hs'⟩
  | remove start =>
    rcases hs.remove start with ⟨hres, -⟩ | ⟨s', v, vs', hres, -, hs', -⟩
    · exact ⟨s, .status (-1), by rw [mapleCall, hres]; rfl, L, height, root, vs, free, vfree, hs⟩
    · exact ⟨s', .status 0, by rw [mapleCall, hres]; rfl, L, height, root, vs', free, v :: vfree, hs'⟩
  | find addr =>
    obtain ⟨lo, hi, par, leaf, vL, w, vR, up, -, hpath, hleaf, hlo, hhi, -⟩ := hs.tree.leads addr
    have hres := mapleFind_leaf hs.tree hpath hleaf hlo hhi
    exact ⟨s, _, by rw [mapleCall, hres]; rfl, L, height, root, vs, free, vfree, hs⟩
  | count => exact ⟨s, _, rfl, L, height, root, vs, free, vfree, hs⟩

/-- One step of the machine. -/
theorem MapleState.IsTree.step (h : s.IsTree False) (s₀ : MapleState) (call : VmaCall) :
    ∃ s' a, (mapleMachine s₀).step s call = some (s', a) ∧ s'.IsTree False := by
  obtain ⟨s', a, hres, hs'⟩ := h.call call fun hf => hf.elim
  refine ⟨s', a, ?_, hs'⟩
  show (mapleCall mapleNodeSlots s call).toOption = _
  rw [hres]
  rfl

/-- Every sequence of calls returns. -/
theorem mapleMachine_run (s₀ : MapleState) (calls : List VmaCall) :
    ∃ s answers, (mapleMachine s₀).run calls = some (s, answers) ∧ s.IsTree False :=
  Machine.run_invariant ⟨_, _, _, _, _, _, mapleInit_stores s₀ False⟩ (fun _ call hs => hs.step s₀ call) calls

/-- **After every run** the pools hold a tree. -/
theorem mapleMachine_isTree {s₀ : MapleState} (h : (mapleMachine s₀).Reachable s) : s.IsTree False :=
  h.invariant (I := fun s => s.IsTree False) ⟨_, _, _, _, _, _, mapleInit_stores s₀ False⟩
    fun _ call hs => hs.step s₀ call

/-- **After a run whose areas stay in their leaves** every area ends in the range of its leaf. -/
theorem mapleMachine_isTree_tight {s₀ : MapleState}
    (h : (mapleMachine s₀).ReachableVia MapleState.AddStays s) : s.IsTree True := by
  refine h.invariant (I := fun s => s.IsTree True)
    ⟨_, _, _, _, _, _, mapleInit_stores s₀ True⟩ fun s s' call a hs hstay hstep => ?_
  obtain ⟨t, b, hres, ht⟩ := hs.call call fun _ => hstay
  have hstep' : (mapleCall mapleNodeSlots s call).toOption = some (s', a) := hstep
  rw [hres] at hstep'
  obtain ⟨rfl, -⟩ : t = s' ∧ b = a := by simpa [Except.toOption] using hstep'
  exact ht

/-- **An area whose ends lead to one leaf** stays in it. -/
theorem MapleState.IsTree.addStays (h : s.IsTree tight) {call : VmaCall} (hends : s.endsTogether call = true) :
    s.AddStays call := by
  obtain ⟨L, height, root, vs, free, vfree, hs⟩ := h
  cases call with
  | add start stop flags name =>
    rintro -
    obtain ⟨-, -, -, leaf, -, -, -, -, hleads, -⟩ := hs.tree.leads start
    refine hs.tree.staysInLeaf_of_last hleads ?_
    obtain ⟨root', hroot, hres⟩ := hleads
    rw [MapleState.endsTogether, hroot] at hends
    have hsame := of_decide_eq_true hends
    dsimp only at hsame
    rw [hres] at hsame
    refine ⟨root', hroot, ?_⟩
    cases hres' : mapleDescend mapleNodeSlots s (stop - 1#32) (mapleMaxNodes + 1) root' with
    | error e =>
      rw [hres'] at hsame
      cases hsame
    | ok leaf' =>
      rw [hres'] at hsame
      rw [← Option.some.inj hsame]
  | _ => exact trivial

/-- What a probe of the state after the calls gives, when the ends of each `add` lead to one leaf. -/
def afterStayingRun {α : Type} (calls : List VmaCall) (probe : MapleState → MapleM α) : Option α :=
  ((mapleMachine mapleZero).runChecked MapleState.endsTogether (mapleInit mapleZero) calls).bind fun s =>
    (probe s).toOption

/-- Such a run, and the probe in the state that it leaves. -/
theorem afterStayingRun_ok {α : Type} {calls : List VmaCall} {probe : MapleState → MapleM α} {a : α}
    (h : afterStayingRun calls probe = some a) :
    ∃ s, (mapleMachine mapleZero).ReachableVia MapleState.AddStays s ∧ probe s = .ok a := by
  obtain ⟨s, hrun, hprobe⟩ := Option.bind_eq_some_iff.mp h
  refine ⟨s, Machine.ReachableVia.of_runChecked (fun t call ht hends => ?_) .init hrun, ?_⟩
  · exact (mapleMachine_isTree_tight ht).addStays hends
  · cases hres : probe s with
    | error e =>
      rw [hres] at hprobe
      cases hprobe
    | ok b =>
      rw [hres] at hprobe
      rw [Option.some.inj hprobe]

/-- What a probe of the state after the calls gives. -/
def afterMapleRun {α : Type} (calls : List VmaCall) (probe : MapleState → MapleM α) : Option α :=
  ((mapleMachine mapleZero).run calls).bind fun r => (probe r.1).toOption

/-- The probe, in the state that the calls leave. -/
theorem afterMapleRun_ok {α : Type} {calls : List VmaCall} {probe : MapleState → MapleM α} {a : α}
    (h : afterMapleRun calls probe = some a) {answers : List VmaAnswer}
    (hrun : (mapleMachine mapleZero).run calls = some (s, answers)) : probe s = .ok a := by
  rw [afterMapleRun, hrun, Option.bind_some] at h
  cases hres : probe s with
  | error e =>
    rw [hres] at h
    cases h
  | ok b =>
    rw [hres] at h
    rw [Option.some.inj h]

end Machine

end Microkernel.Vma
