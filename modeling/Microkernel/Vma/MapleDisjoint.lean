import Microkernel.Vma.MapleRuns
import Mathlib.Data.List.Pairwise

/-! # Disjoint areas in the maple tree

`maple_add` compares with the areas of one leaf, and `maple_find` searches one leaf. Both are enough as long
as every area ends in the range of its leaf; an area that reaches into the next leaf is found only at the
addresses of its own, and areas that are in the next leaf may overlap it.

* **`StoredDisjoint`, `FindsStored`** — the two properties, for the areas that are stored in some leaf.
* **`maple_disjoint`, `maple_finds`** — they hold after every run whose areas stay in their leaves.
* **`maple_accepts_overlap`, `maple_misses_page`** — runs with a split and then an area across it, where
  they fail.
-/

namespace Microkernel.Vma

open Function (update)

/-- **No two stored areas overlap.** -/
def MapleState.StoredDisjoint (s : MapleState) : Prop :=
  ∀ u v, s.IsStored u → s.IsStored v → u ≠ v → ¬ (s.vmas u).Overlaps (s.vmas v)

/-- The range meets a stored area. -/
def MapleState.OverlapsStored (s : MapleState) (start stop : U32) : Prop :=
  ∃ v, s.IsStored v ∧ start < (s.vmas v).stop ∧ (s.vmas v).start < stop

/-- **`maple_find` returns the stored area that holds the address**, and `NULL` when there is none. -/
def MapleState.FindsStored (s : MapleState) : Prop :=
  ∀ addr, (∀ v, s.IsStored v → (s.vmas v).Holds addr →
      mapleFind mapleNodeSlots addr s = .ok (some (s.vmas v))) ∧
    ((∀ v, s.IsStored v → ¬ (s.vmas v).Holds addr) → mapleFind mapleNodeSlots addr s = .ok none)

/-- All addresses of a stored area lead to the leaf that its start leads to. -/
def MapleState.AreasStay (s : MapleState) : Prop :=
  ∀ v, s.IsStored v → s.StaysInLeaf (s.vmas v).start (s.vmas v).stop

section Disjoint
variable {s : MapleState} {tight : Prop}

/-- Areas that end in the ranges of their leaves stay there. -/
theorem MapleState.IsTree.areasStay (h : s.IsTree True) : s.AreasStay := by
  obtain ⟨L, height, root, vs, free, vfree, hs⟩ := h
  intro v hv addr leaf' hge hlt hleads'
  obtain ⟨lo, hi, par, leaf, vL, w, vR, up, hleads, hpath, hleaf, hlo, hhi, hvw⟩ :=
    hs.tree.leaf_of_stored hv
  obtain rfl := hleads.unique hleads'
  have hend := (hleaf.inside hvw).2.2 trivial
  exact hs.tree.leadsTo hpath hleaf (hlo.trans hge) (lt_of_lt_of_le hlt hend)

/-- **When the areas stay in their leaves, `maple_find` is exact.** -/
theorem MapleState.IsTree.finds (h : s.IsTree tight) (hstay : s.AreasStay) : s.FindsStored := by
  obtain ⟨L, height, root, vs, free, vfree, hs⟩ := h
  intro addr
  obtain ⟨lo, hi, par, leaf, vL, w, vR, up, hleads, hpath, hleaf, hlo, hhi, hvs⟩ := hs.tree.leads addr
  constructor
  · intro v hv hholds
    obtain ⟨lo', hi', par', leaf', vL', w', vR', up', hleads', -, hleaf', -, -, hvw⟩ :=
      hs.tree.leaf_of_stored hv
    obtain rfl := (hstay v hv addr leaf' hholds.1 hholds.2 hleads').unique hleads
    have hvw' := hleaf.2.2.mem_iff.mp (hleaf'.2.2.mem_iff.mpr hvw)
    exact mapleFind_eq hs.tree hpath hleaf hlo hhi hvw' hholds
  · intro hnone
    rw [mapleFind_leaf hs.tree hpath hleaf hlo hhi, List.find?_eq_none.mpr]
    intro a ha
    obtain ⟨v, hv, rfl⟩ := List.mem_map.mp ha
    have hstored : s.IsStored v := hs.tree.stored_iff.mpr (by simp [hvs, hv])
    simpa using hnone v hstored

/-- When `maple_find` finds disjoint areas at all their addresses, these lead to one leaf. -/
theorem MapleState.IsTree.stays (h : s.IsTree tight) (hdis : s.StoredDisjoint) (hfinds : s.FindsStored) :
    s.AreasStay := by
  obtain ⟨L, height, root, vs, free, vfree, hs⟩ := h
  intro v hv addr leaf hge hlt hleads
  obtain ⟨lo, hi, par, leaf', vL, w, vR, up, hleads', hpath, hleaf, hlo, hhi, hvs⟩ := hs.tree.leads addr
  have hfind := (hfinds addr).1 v hv ⟨hge, hlt⟩
  rw [mapleFind_leaf hs.tree hpath hleaf hlo hhi] at hfind
  obtain ⟨u, hu, heq⟩ := List.mem_map.mp (List.mem_of_find?_eq_some (Except.ok.inj hfind))
  have hne : (s.vmas v).lo < (s.vmas v).hi := lt_of_le_of_lt hge hlt
  -- the area found is the stored one, which is in the leaf for the address
  obtain rfl : u = v := by
    by_contra huv
    refine hdis u v (hs.tree.stored_iff.mpr (by simp [hvs, hu])) hv huv ?_
    rw [heq]
    exact ⟨hne, hne⟩
  obtain ⟨hlo', hhi', -⟩ := hleaf.inside hu
  obtain rfl := hleads.unique (hs.tree.leadsTo hpath hleaf hlo' hhi')
  exact hleads'

/-- The stored areas are disjoint when those that `maple_dump` lists are. -/
theorem MapleState.IsTree.disjoint_of_dump (h : s.IsTree tight)
    (hpair : ((mapleDump s).map s.vmas).Pairwise fun a b => ¬ a.Overlaps b) : s.StoredDisjoint := by
  obtain ⟨L, height, root, vs, free, vfree, hs⟩ := h
  intro u v hu hv huv
  rw [hs.dump, List.pairwise_map] at hpair
  have : Std.Symm fun a b => ¬ (s.vmas a).Overlaps (s.vmas b) :=
    ⟨fun _ _ hno hover => hno ⟨hover.2, hover.1⟩⟩
  exact hpair.forall (hs.tree.stored_iff.mp hu) (hs.tree.stored_iff.mp hv) huv

/-- **Areas that end in the ranges of their leaves are disjoint.** -/
theorem MapleState.IsTree.disjoint (h : s.IsTree True) : s.StoredDisjoint := by
  refine h.disjoint_of_dump ?_
  obtain ⟨L, height, root, vs, free, vfree, hs⟩ := h
  rw [hs.dump]
  exact (hs.tree.subtree.separated trivial).not_overlaps

/-- **An area that would stay in its leaf** passes the checks only when it meets no stored area. -/
theorem MapleState.IsTree.not_passes (h : s.IsTree True) {start stop : U32}
    (hstay : s.PassesChecks start stop → s.StaysInLeaf start stop) (hover : s.OverlapsStored start stop) :
    ¬ s.PassesChecks start stop := by
  intro hpass
  obtain ⟨L, height, root, vs, free, vfree, hs⟩ := h
  obtain ⟨v, hv, hstart, hstop⟩ := hover
  obtain ⟨lo, hi, par, leaf, vL, w, vR, up, -, hpath, hleaf, hlo, hhi, rfl⟩ := hs.tree.leads start
  have hend := hs.tree.stop_le hpath hleaf hlo hhi (hstay hpass)
  have hno := ((hs.tree.passesChecks_iff hpath hleaf hlo hhi).mp hpass).2.2
  rcases List.mem_append.mp (hs.tree.stored_iff.mp hv) with hv | hv
  · have hfront := (hpath.front hv).2 trivial
    have hlt : start.toNat < (s.vmas v).hi := hstart
    omega
  rcases List.mem_append.mp hv with hv | hv
  · exact hno ⟨v, hv, hstart, hstop⟩
  · have hbehind := hpath.behind hv
    have hlt : (s.vmas v).lo < stop.toNat := hstop
    omega

end Disjoint

/-! ### Runs -/

/-- The `add` of `n` pages from the page with number `i` on. -/
def addPages (i n : ℕ) : VmaCall :=
  .add (BitVec.ofNat 32 (4096 * i)) (BitVec.ofNat 32 (4096 * (i + n))) 3#32 .null

/-- Eleven pages, every other one: the leaf is split at the page 10. -/
def everyOtherPage : List VmaCall := (List.range 11).map fun i => addPage (2 * i)

/-- **The stored areas are disjoint** after every run whose areas stay in their leaves, and an area that
would stay in its leaf is rejected when it meets a stored one. -/
theorem maple_disjoint {s₀ s : MapleState}
    (h : (mapleMachine s₀).ReachableVia MapleState.AddStays s) :
    s.StoredDisjoint ∧ ∀ start stop flags name, s.AddStays (.add start stop flags name) →
      s.OverlapsStored start stop → mapleAdd mapleNodeSlots start stop flags name s = .ok (s, -1) := by
  have htree := mapleMachine_isTree_tight h
  refine ⟨htree.disjoint, fun start stop flags name hstay hover => ?_⟩
  have hno := htree.not_passes hstay hover
  obtain ⟨L, height, root, vs, free, vfree, hs⟩ := htree
  exact hs.tree.add_rejects hno flags name

/-- Behind the split, in the second leaf: three pages that would cover the stored page 14 are rejected. -/
theorem maple_disjoint_secondLeaf : ∃ s root, s.root = some root ∧ (s.nodes root).isLeaf = false ∧
    s.StoredDisjoint ∧ s.OverlapsStored 0xD000#32 0x10000#32 ∧
    mapleAdd mapleNodeSlots 0xD000#32 0x10000#32 3#32 .null s = .ok (s, -1) := by
  have hprobe : afterStayingRun everyOtherPage (fun s => do
      return (s.root.map fun root => (root, (s.nodes root).isLeaf), s.endsTogether (addPages 13 3),
        ← mapleFind mapleNodeSlots 0xE000#32 s)) =
      some (some (2, false), true, some ⟨0xE000#32, 0xF000#32, 3#32, .null⟩) := by decide +kernel
  obtain ⟨s, h, hres⟩ := afterStayingRun_ok hprobe
  cases hfind : mapleFind mapleNodeSlots 0xE000#32 s with
  | error e =>
    rw [hfind] at hres
    cases hres
  | ok a =>
    rw [hfind] at hres
    obtain ⟨hroot, hrest⟩ := Prod.mk.inj (Except.ok.inj hres)
    obtain ⟨hends, rfl⟩ := Prod.mk.inj hrest
    obtain ⟨root, hroot, hleaf⟩ := Option.map_eq_some_iff.mp hroot
    obtain ⟨rfl, hleaf⟩ := Prod.mk.inj hleaf
    have htree := mapleMachine_isTree_tight h
    obtain ⟨hdis, hreject⟩ := maple_disjoint h
    have hover : s.OverlapsStored 0xD000#32 0x10000#32 := by
      obtain ⟨L, height, root, vs, free, vfree, hs⟩ := htree
      obtain ⟨v, hv, hvma, -⟩ := hs.tree.find_stored hfind
      refine ⟨v, hv, ?_⟩
      rw [hvma]
      decide
    exact ⟨s, 2, hroot, hleaf, hdis, hover, hreject _ _ _ _ (htree.addStays hends) hover⟩

/-- **An area that begins in front of the split and ends behind it** is accepted, though it overlaps the
first area behind the split. -/
theorem maple_accepts_overlap :
    (¬ ∀ s, (mapleMachine mapleZero).Reachable s → s.StoredDisjoint) ∧
    ¬ ∀ s, (mapleMachine mapleZero).Reachable s → ∀ start stop flags name,
      s.OverlapsStored start stop →
        ∃ s', mapleAdd mapleNodeSlots start stop flags name s = .ok (s', -1) := by
  have hpage : afterMapleRun everyOtherPage (mapleFind mapleNodeSlots 0xA000#32) =
      some (some ⟨0xA000#32, 0xB000#32, 3#32, .null⟩) := by decide +kernel
  have hadd : afterMapleRun everyOtherPage
      (fun s => return (← mapleAdd mapleNodeSlots 0x9000#32 0xB000#32 3#32 .null s).2) = some 0 := by
    decide +kernel
  have hpage' : afterMapleRun (everyOtherPage ++ [addPages 9 2]) (mapleFind mapleNodeSlots 0xA000#32) =
      some (some ⟨0xA000#32, 0xB000#32, 3#32, .null⟩) := by decide +kernel
  have hnew : afterMapleRun (everyOtherPage ++ [addPages 9 2]) (mapleFind mapleNodeSlots 0x9000#32) =
      some (some ⟨0x9000#32, 0xB000#32, 3#32, .null⟩) := by decide +kernel
  constructor
  · intro hall
    obtain ⟨s, answers, hrun, L, height, root, vs, free, vfree, hs⟩ :=
      mapleMachine_run mapleZero (everyOtherPage ++ [addPages 9 2])
    obtain ⟨u, hu, huvma, -⟩ := hs.tree.find_stored (afterMapleRun_ok hpage' hrun)
    obtain ⟨v, hv, hvvma, -⟩ := hs.tree.find_stored (afterMapleRun_ok hnew hrun)
    refine hall s ⟨_, answers, hrun⟩ u v hu hv ?_ ?_
    · rintro rfl
      rw [huvma] at hvvma
      exact absurd hvvma (by decide)
    · rw [huvma, hvvma]
      decide
  · intro hall
    obtain ⟨s, answers, hrun, L, height, root, vs, free, vfree, hs⟩ :=
      mapleMachine_run mapleZero everyOtherPage
    obtain ⟨v, hv, hvma, -⟩ := hs.tree.find_stored (afterMapleRun_ok hpage hrun)
    obtain ⟨s', hres⟩ := hall s ⟨_, answers, hrun⟩ 0x9000#32 0xB000#32 3#32 .null ⟨v, hv, by
      rw [hvma]
      decide⟩
    have hres' := afterMapleRun_ok hadd hrun
    rw [hres] at hres'
    cases hres'

/-- **`maple_find` is exact** for disjoint areas exactly when all addresses of each lead to the leaf for its
start, and this is so after every run whose areas stay in their leaves. -/
theorem maple_finds {s₀ s : MapleState} :
    ((mapleMachine s₀).Reachable s → s.StoredDisjoint → (s.FindsStored ↔ s.AreasStay)) ∧
    ((mapleMachine s₀).ReachableVia MapleState.AddStays s → s.FindsStored) := by
  constructor
  · intro h hdis
    have htree := mapleMachine_isTree h
    exact ⟨htree.stays hdis, htree.finds⟩
  · intro h
    have htree := mapleMachine_isTree_tight h
    exact htree.finds htree.areasStay

/-- After a split and a removal in the second leaf, the area that takes the place of the removed page and
of its neighbours is found, as is every other. -/
theorem maple_finds_afterRemoval : ∃ s root, s.root = some root ∧ (s.nodes root).isLeaf = false ∧
    mapleFind mapleNodeSlots 0xC000#32 s = .ok (some ⟨0xB000#32, 0xE000#32, 3#32, .null⟩) ∧
    s.FindsStored ∧ s.AreasStay := by
  have hprobe : afterStayingRun (everyOtherPage ++ [.remove 0xC000#32, addPages 11 3]) (fun s => do
      return (s.root.map fun root => (root, (s.nodes root).isLeaf), ← mapleFind mapleNodeSlots 0xC000#32 s)) =
      some (some (2, false), some ⟨0xB000#32, 0xE000#32, 3#32, .null⟩) := by decide +kernel
  obtain ⟨s, h, hres⟩ := afterStayingRun_ok hprobe
  cases hfind : mapleFind mapleNodeSlots 0xC000#32 s with
  | error e =>
    rw [hfind] at hres
    cases hres
  | ok a =>
    rw [hfind] at hres
    obtain ⟨hroot, rfl⟩ := Prod.mk.inj (Except.ok.inj hres)
    obtain ⟨root, hroot, hleaf⟩ := Option.map_eq_some_iff.mp hroot
    obtain ⟨rfl, hleaf⟩ := Prod.mk.inj hleaf
    have hfinds := maple_finds.2 h
    have hdis := (mapleMachine_isTree_tight h).disjoint
    exact ⟨s, 2, hroot, hleaf, hfind, hfinds, (maple_finds.1 h.reachable hdis).mp hfinds⟩

/-- The pages behind the split are removed, and an area that reaches over the split takes their place. -/
def acrossSplit : List VmaCall :=
  everyOtherPage ++ [.remove 0xA000#32, .remove 0xC000#32, addPages 9 3]

/-- **The pages of that area behind the split are not found**, though the stored areas are disjoint and
nodes are left, so that no allocation has failed. -/
theorem maple_misses_page :
    ¬ ∀ s, (mapleMachine mapleZero).Reachable s → s.StoredDisjoint → s.nodeFree ≠ none → s.FindsStored := by
  have hpair : afterMapleRun acrossSplit (fun s => .ok
      (decide (((mapleDump s).map s.vmas).Pairwise fun a b => ¬ a.Overlaps b), s.nodeFree.isSome)) =
      some (true, true) := by decide +kernel
  have harea : afterMapleRun acrossSplit (mapleFind mapleNodeSlots 0x9000#32) =
      some (some ⟨0x9000#32, 0xC000#32, 3#32, .null⟩) := by decide +kernel
  have hnone : afterMapleRun acrossSplit (mapleFind mapleNodeSlots 0xB000#32) = some none := by
    decide +kernel
  intro hall
  obtain ⟨s, answers, hrun, hs⟩ := mapleMachine_run mapleZero acrossSplit
  obtain ⟨hdis, hfree⟩ := Prod.mk.inj (Except.ok.inj (afterMapleRun_ok hpair hrun))
  have hfinds := hall s ⟨_, answers, hrun⟩ (hs.disjoint_of_dump (of_decide_eq_true hdis))
    (Option.isSome_iff_ne_none.mp hfree) 0xB000#32
  obtain ⟨L, height, root, vs, free, vfree, hstores⟩ := hs
  obtain ⟨v, hv, hvma, -⟩ := hstores.tree.find_stored (afterMapleRun_ok harea hrun)
  have hfound := hfinds.1 v hv (by
    rw [hvma]
    decide)
  rw [afterMapleRun_ok hnone hrun] at hfound
  cases hfound

end Microkernel.Vma
