import Microkernel.Vma.MapleDisjoint

/-! # Commits and capacity of the maple tree

`maple_add` is all or nothing unless the nodes run out between the split of the leaf and the top of the
tree. It succeeds as long as the count allows it and the leaf has a place or a node is free; removals free no
node, so a run can use up the pool with few areas stored.

* **`AllOrNothing`** — that a call leaves all that was found before, and its own area when it succeeds.
* **`maple_allOrNothing`, `maple_loses_area`** — when it holds, and a state in which it does not: the last
  node goes to the leaf.
* **`maple_capacity`** — exactly when an addition succeeds.
* **`maple_runs_out_of_nodes`** — a run that fails with 255 areas stored.
-/

namespace Microkernel.Vma

open Function (update)

/-- **A call is all or nothing**: when it succeeds, its area is found at its start, and what could be found
before is found at some address; when it fails, everything is as before. -/
def MapleState.AllOrNothing (s : MapleState) (start stop flags : U32) (name : NamePtr) : Prop :=
  ∃ s' r, mapleAdd mapleNodeSlots start stop flags name s = .ok (s', r) ∧
    ((r = 0 ∧ mapleFind mapleNodeSlots start s' = .ok (some ⟨start, stop, flags, name⟩) ∧
        ∀ addr a, mapleFind mapleNodeSlots addr s = .ok (some a) →
          ∃ addr', mapleFind mapleNodeSlots addr' s' = .ok (some a)) ∨
      (r = -1 ∧ s.AsBefore s'))

section Calls
variable {s : MapleState} {tight : Prop} {start stop : U32}

/-- A tree is as it was when nothing was done. -/
theorem MapleState.AsBefore.refl (s : MapleState) : s.AsBefore s :=
  ⟨rfl, rfl, rfl, rfl, rfl, fun _ => rfl, fun _ _ => rfl⟩

/-- **A call that does not run out of nodes on the way up** is all or nothing. -/
theorem MapleState.IsTree.allOrNothing (h : s.IsTree False)
    (hout : s.PassesChecks start stop → ¬ s.RunsOut start) (flags : U32) (name : NamePtr) :
    s.AllOrNothing start stop flags name := by
  obtain ⟨L, height, root, vs, free, vfree, hs⟩ := h
  by_cases hpass : s.PassesChecks start stop
  · by_cases hplace : ¬ s.LeafFull start ∨ s.nodeFree ≠ none
    · obtain ⟨s', v, L', height', root', vs', free', vfree', hres, hs', -, -, hvma, hkeep, hall⟩ :=
        hs.add_inserts hpass hplace False.elim flags name
      have hperm := hall (hout hpass)
      have hstored : ∀ u ∈ v :: vs, s'.IsStored u := fun u hu =>
        hs'.tree.stored_iff.mpr (hperm.mem_iff.mpr hu)
      refine ⟨s', 0, hres, .inl ⟨rfl, ?_, fun addr a hfind => ?_⟩⟩
      · have hstart := hs'.tree.find_start (hstored v List.mem_cons_self)
        rwa [hvma] at hstart
      · obtain ⟨u, hu, rfl, -⟩ := hs.tree.find_stored hfind
        have huvs := hs.tree.stored_iff.mp hu
        refine ⟨(s.vmas u).start, ?_⟩
        rw [← hkeep u huvs]
        exact hs'.tree.find_start (hstored u (List.mem_cons_of_mem v huvs))
    · rw [not_or, not_not, not_not] at hplace
      obtain ⟨s', hres, hbefore, -⟩ := hs.add_noNode hpass hplace.1 hplace.2 flags name
      exact ⟨s', -1, hres, .inr ⟨rfl, hbefore⟩⟩
  · exact ⟨s, -1, hs.tree.add_rejects hpass flags name, .inr ⟨rfl, .refl s⟩⟩

/-- **When a call succeeds**: it passes the checks, and the leaf has a place or a node is free. -/
theorem MapleState.IsTree.add_ok_iff (h : s.IsTree False) (flags : U32) (name : NamePtr) :
    (∃ s', mapleAdd mapleNodeSlots start stop flags name s = .ok (s', 0)) ↔
      s.PassesChecks start stop ∧ (¬ s.LeafFull start ∨ s.nodeFree ≠ none) := by
  obtain ⟨L, height, root, vs, free, vfree, hs⟩ := h
  constructor
  · rintro ⟨s', hres⟩
    by_cases hpass : s.PassesChecks start stop
    · refine ⟨hpass, ?_⟩
      by_contra hplace
      rw [not_or, not_not, not_not] at hplace
      obtain ⟨t, hfail, -⟩ := hs.add_noNode hpass hplace.1 hplace.2 flags name
      rw [hfail] at hres
      cases hres
    · rw [hs.tree.add_rejects hpass] at hres
      cases hres
  · rintro ⟨hpass, hplace⟩
    obtain ⟨s', v, L', height', root', vs', free', vfree', hres, -⟩ :=
      hs.add_inserts hpass hplace False.elim flags name
    exact ⟨s', hres⟩

/-- A valid range that meets no stored area passes the checks when the count allows it. -/
theorem MapleState.IsTree.passes (h : s.IsTree tight)
    (hvalid : start < stop ∧ start.PageAligned ∧ stop.PageAligned) (hno : ¬ s.OverlapsStored start stop) :
    s.PassesChecks start stop ↔ s.count < mapleMaxVmas := by
  obtain ⟨L, height, root, vs, free, vfree, hs⟩ := h
  obtain ⟨lo, hi, par, leaf, vL, w, vR, up, -, hpath, hleaf, hlo, hhi, hvs⟩ := hs.tree.leads start
  rw [hs.tree.passesChecks_iff hpath hleaf hlo hhi]
  refine ⟨And.left, fun hcount => ⟨hcount, hvalid, ?_⟩⟩
  rintro ⟨v, hv, hover⟩
  exact hno ⟨v, hs.tree.stored_iff.mpr (by simp [hvs, hv]), hover⟩

end Calls

/-! ### All or nothing -/

/-- **`maple_add` is all or nothing** in every state that is reached, unless it passes the checks and the
nodes run out on the way up. -/
theorem maple_allOrNothing {s₀ s : MapleState} (h : (mapleMachine s₀).Reachable s) {start stop : U32}
    (hout : s.PassesChecks start stop → ¬ s.RunsOut start) (flags : U32) (name : NamePtr) :
    s.AllOrNothing start stop flags name :=
  (mapleMachine_isTree h).allOrNothing hout flags name

/-- Pages that split the leaf and fill the second half again. -/
def fillsSecondLeaf : List VmaCall :=
  everyOtherPage ++ [addPage 11, addPage 13, addPage 15, addPage 17]

/-- After these pages the second leaf is full, its parent is not, and nodes are left. -/
theorem fillsSecondLeaf_state : ∃ s, (mapleMachine mapleZero).Reachable s ∧ s.count = 15 ∧ s.nodeFree ≠ none ∧
    (∀ leaf, s.LeadsTo 0x13000#32 leaf ↔ leaf = 1) ∧ (s.nodes 1).nrEntries.toNat = mapleNodeSlots ∧
    nodesAbove s mapleMaxNodes 1 < freeNodes s mapleMaxNodes s.nodeFree ∧
    ¬ s.OverlapsStored 0x13000#32 0x14000#32 := by
  have hplace : afterMapleRun fillsSecondLeaf (fun s => .ok (s.root.map fun root =>
      (mapleDescend mapleNodeSlots s 0x13000#32 (mapleMaxNodes + 1) root).toOption)) =
      some (some (some (some 1))) := by decide +kernel
  have hpools : afterMapleRun fillsSecondLeaf (fun s => .ok (s.count, s.nodeFree.isSome,
      (s.nodes 1).nrEntries.toNat)) = some (15, true, 10) := by decide +kernel
  have htests : afterMapleRun fillsSecondLeaf (fun s => .ok (
      decide (nodesAbove s mapleMaxNodes 1 < freeNodes s mapleMaxNodes s.nodeFree),
      (mapleDump s).all fun v => decide (¬ (0x13000#32 < (s.vmas v).stop ∧ (s.vmas v).start < 0x14000#32)))) =
      some (true, true) := by decide +kernel
  obtain ⟨s, answers, hrun, L, height, root, vs, free, vfree, hs⟩ := mapleMachine_run mapleZero fillsSecondLeaf
  have hleaf : s.root.map (fun root => (mapleDescend mapleNodeSlots s 0x13000#32 (mapleMaxNodes + 1)
      root).toOption) = some (some (some 1)) := Except.ok.inj (afterMapleRun_ok hplace hrun)
  obtain ⟨hcount, hrest⟩ := Prod.mk.inj (Except.ok.inj (afterMapleRun_ok hpools hrun))
  obtain ⟨hfree, hentries⟩ := Prod.mk.inj hrest
  obtain ⟨hnodes, hno⟩ := Prod.mk.inj (Except.ok.inj (afterMapleRun_ok htests hrun))
  refine ⟨s, ⟨_, answers, hrun⟩, hcount, Option.isSome_iff_ne_none.mp hfree, ?_, hentries,
    of_decide_eq_true hnodes, ?_⟩
  · have hleads : s.LeadsTo 0x13000#32 1 := by
      obtain ⟨root', hroot, hres⟩ := Option.map_eq_some_iff.mp hleaf
      refine ⟨root', hroot, ?_⟩
      cases hres' : mapleDescend mapleNodeSlots s 0x13000#32 (mapleMaxNodes + 1) root' with
      | error e =>
        rw [hres'] at hres
        cases hres
      | ok leaf =>
        rw [hres'] at hres
        rw [Option.some.inj hres]
    exact fun leaf => ⟨fun h => h.unique hleads, fun h => h ▸ hleads⟩
  · rintro ⟨v, hv, hover⟩
    have hmem : v ∈ mapleDump s := hs.dump ▸ hs.tree.stored_iff.mp hv
    exact of_decide_eq_true (List.all_eq_true.mp hno v hmem) hover

/-- The page 19 splits the full second leaf of such a tree. -/
theorem maple_allOrNothing_split : ∃ s, (mapleMachine mapleZero).Reachable s ∧ s.LeafFull 0x13000#32 ∧
    s.AllOrNothing 0x13000#32 0x14000#32 3#32 .null := by
  obtain ⟨s, h, -, -, hleads, hentries, hnodes, -⟩ := fillsSecondLeaf_state
  refine ⟨s, h, ⟨1, (hleads 1).mpr rfl, hentries⟩, maple_allOrNothing h ?_ 3#32 .null⟩
  rintro - ⟨leaf, hleaf, -, -, hout⟩
  obtain rfl := (hleads leaf).mp hleaf
  exact absurd hnodes (Nat.not_lt.mpr hout)

/-- The `remove` of the page with number `i`. -/
def removePage (i : ℕ) : VmaCall :=
  .remove (BitVec.ofNat 32 (4096 * i))

/-- A run that leaves one node: the first leaves are split again by pages between the old ones, then emptied
of these, and new pages fill the leaves behind. -/
def leavesOneNode : List VmaCall :=
  (List.range 100).map (fun i => addPage (4 * i)) ++
    ([0, 1, 2].flatMap fun j => [1, 2, 3, 5, 6, 7].map fun i => addPage (20 * j + i)) ++
    (List.range 20).map (fun i => removePage (4 * i)) ++
    (List.range 155).map (fun i => addPage (4 * (i + 100)))

/-- **The last node goes to the leaf, and its full parent finds none**: the call returns 0, and its own area
is not found. -/
theorem maple_loses_area : ¬ ∀ s, (mapleMachine mapleZero).Reachable s →
    ∀ start stop flags name, s.AllOrNothing start stop flags name := by
  have hlost : afterMapleRun leavesOneNode (fun s => do
      let r ← mapleAdd mapleNodeSlots 0x3FC000#32 0x3FD000#32 3#32 .null s
      return (r.2, ← mapleFind mapleNodeSlots 0x3FC000#32 r.1)) = some (0, none) := by
    set_option maxRecDepth 100000 in decide +kernel
  intro hall
  obtain ⟨s, answers, hrun, -⟩ := mapleMachine_run mapleZero leavesOneNode
  obtain ⟨s', r, hres, hcommit⟩ := hall s ⟨_, answers, hrun⟩ 0x3FC000#32 0x3FD000#32 3#32 .null
  have hfind := afterMapleRun_ok hlost hrun
  rw [hres, MapleM.ok_bind] at hfind
  dsimp only at hfind
  rcases hcommit with ⟨rfl, hfound, -⟩ | ⟨rfl, -⟩
  · rw [hfound] at hfind
    cases hfind
  · cases hres' : mapleFind mapleNodeSlots 0x3FC000#32 s' with
    | error e =>
      rw [hres'] at hfind
      cases hfind
    | ok a =>
      rw [hres'] at hfind
      cases hfind

/-! ### Capacity -/

/-- **`maple_add` of a valid area that meets no stored one** succeeds, in every state that is reached,
exactly when the count allows it and the leaf for its start has a place or a node is free. -/
theorem maple_capacity {s₀ s : MapleState} (h : (mapleMachine s₀).Reachable s) {start stop : U32}
    (hvalid : start < stop ∧ start.PageAligned ∧ stop.PageAligned) (hno : ¬ s.OverlapsStored start stop)
    (flags : U32) (name : NamePtr) :
    (∃ s', mapleAdd mapleNodeSlots start stop flags name s = .ok (s', 0)) ↔
      s.count < mapleMaxVmas ∧ (¬ s.LeafFull start ∨ s.nodeFree ≠ none) := by
  have htree := mapleMachine_isTree h
  rw [htree.add_ok_iff, htree.passes hvalid hno]

/-- The page 19 takes a node for the second half of the full second leaf. -/
theorem maple_capacity_split : ∃ s, (mapleMachine mapleZero).Reachable s ∧ s.count = 15 ∧
    s.LeafFull 0x13000#32 ∧ ∃ s', mapleAdd mapleNodeSlots 0x13000#32 0x14000#32 3#32 .null s = .ok (s', 0) := by
  obtain ⟨s, h, hcount, hfree, hleads, hentries, -, hno⟩ := fillsSecondLeaf_state
  refine ⟨s, h, hcount, ⟨1, (hleads 1).mpr rfl, hentries⟩, ?_⟩
  refine (maple_capacity h (by decide) hno 3#32 .null).mpr ⟨?_, .inr hfree⟩
  rw [hcount]
  decide

/-- A run that uses up the nodes with 255 pages stored: the pages of the first leaves are removed, and as
many are added at the other end. -/
def usesUpNodes : List VmaCall :=
  (List.range 255).map addPage ++ (List.range 15).map removePage ++
    (List.range 15).map fun i => addPage (i + 255)

/-- **A removal gives no node back**: with 255 pages stored, the next one fails. -/
theorem maple_runs_out_of_nodes : ¬ ∀ s, (mapleMachine mapleZero).Reachable s →
    (mapleDump s).length < mapleMaxVmas → ∀ start stop flags name,
      (start < stop ∧ start.PageAligned ∧ stop.PageAligned) → ¬ s.OverlapsStored start stop →
        ∃ s', mapleAdd mapleNodeSlots start stop flags name s = .ok (s', 0) := by
  have hprobe : afterMapleRun usesUpNodes (fun s => do
      return (decide ((mapleDump s).length < mapleMaxVmas),
        (mapleDump s).all fun v => decide (¬ (0x10E000#32 < (s.vmas v).stop ∧ (s.vmas v).start < 0x10F000#32)),
        (← mapleAdd mapleNodeSlots 0x10E000#32 0x10F000#32 3#32 .null s).2)) = some (true, true, -1) := by
    set_option maxRecDepth 100000 in decide +kernel
  intro hall
  obtain ⟨s, answers, hrun, L, height, root, vs, free, vfree, hs⟩ := mapleMachine_run mapleZero usesUpNodes
  have hprobe' := afterMapleRun_ok hprobe hrun
  cases hres : mapleAdd mapleNodeSlots 0x10E000#32 0x10F000#32 3#32 .null s with
  | error e =>
    rw [hres] at hprobe'
    cases hprobe'
  | ok p =>
    rw [hres] at hprobe'
    obtain ⟨hlen, hrest⟩ := Prod.mk.inj (Except.ok.inj hprobe')
    obtain ⟨hno, hfail⟩ := Prod.mk.inj hrest
    obtain ⟨s', hok⟩ := hall s ⟨_, answers, hrun⟩ (of_decide_eq_true hlen) 0x10E000#32 0x10F000#32 3#32
      .null (by decide) (by
        rintro ⟨v, hv, hover⟩
        have hmem : v ∈ mapleDump s := hs.dump ▸ hs.tree.stored_iff.mp hv
        exact of_decide_eq_true (List.all_eq_true.mp hno v hmem) hover)
    rw [hres] at hok
    obtain rfl := Except.ok.inj hok
    exact absurd (show (0 : Int) = -1 from hfail) (by decide)

end Microkernel.Vma
