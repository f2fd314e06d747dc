import Microkernel.Vma.MapleAdd

/-! # The calls of the maple tree

What each operation does to a pool that holds a tree, when a leaf has room for one key for each of its
places. A search comes to the one leaf whose range has the address; an insertion compares with this leaf
alone, and takes nodes for the splits as long as there are any.

* **`LeadsTo`, `StaysInLeaf`** — where a search comes to, and that a whole range leads to one leaf.
* **`MapleState.Stores`** — the pools hold a tree with these areas; the invariant of what follows.
* **`Tree.find_stored`, `Tree.find_start`** — a search finds only what is stored, and everything stored at
  its start.
* **`Stores.remove`** — a removal takes out the area that begins at the address.
-/

namespace Microkernel.Vma

open Function (update)

/-! ### Searches -/

/-- The search for an address comes to the leaf. -/
def MapleState.LeadsTo (s : MapleState) (addr : U32) (leaf : ℕ) : Prop :=
  ∃ root, s.root = some root ∧
    mapleDescend mapleNodeSlots s addr (mapleMaxNodes + 1) root = .ok (some leaf)

/-- Every address of the range leads to the leaf that its start leads to. -/
def MapleState.StaysInLeaf (s : MapleState) (start stop : U32) : Prop :=
  ∀ addr leaf, start ≤ addr → addr < stop → s.LeadsTo start leaf → s.LeadsTo addr leaf

section Search
variable {s : MapleState} {L : MapleLabels} {tight : Prop} {k height root lo hi c leaf up : ℕ}
  {par : Option ℕ} {vs free vL vR w : List ℕ} {addr : U32}

/-- A search comes to one leaf only. -/
theorem MapleState.LeadsTo.unique {leaf' : ℕ} (h : s.LeadsTo addr leaf) (h' : s.LeadsTo addr leaf') :
    leaf = leaf' := by
  obtain ⟨root, hroot, hres⟩ := h
  obtain ⟨root', hroot', hres'⟩ := h'
  obtain rfl := Option.some.inj (hroot.symm.trans hroot')
  simpa using hres.symm.trans hres'

/-- A search at the root for an address of a place passes the place. -/
theorem MapleState.Path.descend_root (h : s.Path L tight height root k lo hi par c vL vR up)
    (hlo : lo ≤ addr.toNat) (hhi : addr.toNat < hi) (n : ℕ) :
    mapleDescend mapleNodeSlots s addr (n + (height - k)) root = mapleDescend mapleNodeSlots s addr n c := by
  induction h generalizing n with
  | root => rw [Nat.sub_self, Nat.add_zero]
  | @child k lo₀ hi₀ p c lo hi up par l₁ l₂ vL vR wL wR above label parent children front lt behind ih =>
    have hlt : ∀ a b d u, s.Subtree L tight k a b (some p) d u → a < b := fun a b d u hs => hs.lt
    have hle := front.le hlt
    have hge := behind.le hlt
    have hlevel := above.level_le
    have hlow : ∀ e ∈ l₁, e.2 ≤ addr.toNat := fun e he => (front.bounds hlt he).2.trans hlo
    have hslot := children.child (show (l₁ ++ (c, hi) :: l₂)[l₁.length]? = some (c, hi) by simp)
    have hlen : l₁.length < mapleNodeSlots := by
      have := children.length_le
      rw [List.length_append, List.length_cons] at this
      omega
    have hstep := ih (by omega) (by omega) (n + 1)
    rw [show n + (height - k) = n + 1 + (height - (k + 1)) by omega, hstep, mapleDescend,
      if_neg (by rw [children.isLeaf]; exact Bool.false_ne_true), children.findChild hlow fun _ => hhi,
      MapleM.ok_bind, MapleNode.getSlot_ok hlen, MapleM.ok_bind, hslot]

/-- **The leaf for an address** is the one whose range has it. -/
theorem MapleState.Tree.leadsTo (h : s.Tree L tight height root vs free)
    (hpath : s.Path L tight height root 0 lo hi par leaf vL vR up)
    (hleaf : s.Subtree L tight 0 lo hi par leaf w) (hlo : lo ≤ addr.toNat) (hhi : addr.toNat < hi) :
    s.LeadsTo addr leaf := by
  have hheight := h.height_lt
  refine ⟨root, h.root_eq, ?_⟩
  have hstep := hpath.descend_root hlo hhi (mapleMaxNodes + 1 - height)
  rw [Nat.sub_zero, Nat.sub_add_cancel (by omega)] at hstep
  obtain ⟨n, hn⟩ := Nat.exists_eq_add_of_lt hheight
  rw [hstep, hn, show height + n + 1 + 1 - height = n + 1 + 1 by omega, mapleDescend,
    if_pos hleaf.2.2.entries.isLeaf]

/-- Every address leads to a leaf. -/
theorem MapleState.Tree.leads (h : s.Tree L tight height root vs free) (addr : U32) :
    ∃ lo hi par leaf vL w vR up, s.LeadsTo addr leaf ∧
      s.Path L tight height root 0 lo hi par leaf vL vR up ∧ s.Subtree L tight 0 lo hi par leaf w ∧
      lo ≤ addr.toNat ∧ addr.toNat < hi ∧ vs = vL ++ (w ++ vR) := by
  obtain ⟨lo, hi, par, leaf, vL, w, vR, up, hres, hpath, hleaf, hlo, hhi, hvs⟩ :=
    MapleState.Path.root.descend h.subtree (Nat.zero_le _) addr.isLt
      (h.height_lt.trans (Nat.lt_succ_self _))
  refine ⟨lo, hi, par, leaf, vL, w, vR, up, ⟨root, h.root_eq, hres⟩, hpath, hleaf, hlo, hhi, ?_⟩
  simpa using hvs

/-- **A range whose addresses all lead to one leaf** ends in the range of the leaf. -/
theorem MapleState.Tree.stop_le (h : s.Tree L tight height root vs free)
    (hpath : s.Path L tight height root 0 lo hi par leaf vL vR up)
    (hleaf : s.Subtree L tight 0 lo hi par leaf w) {start stop : U32} (hlo : lo ≤ start.toNat)
    (hhi : start.toNat < hi) (hstay : s.StaysInLeaf start stop) : stop.toNat ≤ hi := by
  by_contra hgt
  have hstop := stop.isLt
  have haddr : (BitVec.ofNat 32 hi).toNat = hi := by
    rw [BitVec.toNat_ofNat, Nat.mod_eq_of_lt (by omega)]
  have hleads : s.LeadsTo (BitVec.ofNat 32 hi) leaf :=
    hstay _ leaf (BitVec.le_def.mpr (by omega)) (BitVec.lt_def.mpr (by omega))
      (h.leadsTo hpath hleaf hlo hhi)
  -- the address behind the range leads to the same leaf, whose range is unique
  obtain ⟨lo', hi', par', leaf', vL', w', vR', up', hleads', hpath', hleaf', hlo', hhi', -⟩ :=
    h.leads (BitVec.ofNat 32 hi)
  obtain rfl := hleads.unique hleads'
  obtain rfl : lo = lo' := by simpa using hleaf.label.symm.trans hleaf'.label
  obtain rfl : par = par' := hleaf.parent.symm.trans hleaf'.parent
  have := hpath.hi_unique hpath' hleaf.label
  omega

/-- **A range stays in its leaf** when its last address leads there too. -/
theorem MapleState.Tree.staysInLeaf_of_last (h : s.Tree L tight height root vs free) {start stop : U32}
    {leaf' : ℕ} (hstart : s.LeadsTo start leaf') (hlast : s.LeadsTo (stop - 1#32) leaf') :
    s.StaysInLeaf start stop := by
  intro addr leaf hge hlt hleads
  obtain rfl := hstart.unique hleads
  obtain ⟨lo, hi, par, leaf, vL, w, vR, up, hleads₁, hpath, hleaf, hlo, hhi, -⟩ := h.leads start
  obtain ⟨lo', hi', par', leaf', vL', w', vR', up', hleads₂, hpath', hleaf', hlo', hhi', -⟩ :=
    h.leads (stop - 1#32)
  obtain rfl := hstart.unique hleads₁
  obtain rfl := hlast.unique hleads₂
  -- both addresses are in the one range of this leaf, and so is every address between them
  obtain rfl : lo = lo' := by simpa using hleaf.label.symm.trans hleaf'.label
  obtain rfl : par = par' := hleaf.parent.symm.trans hleaf'.parent
  obtain rfl := hpath.hi_unique hpath' hleaf.label
  rw [BitVec.le_def] at hge
  rw [BitVec.lt_def] at hlt
  have hlast : (stop - 1#32).toNat = stop.toNat - 1 := by bv_omega
  exact h.leadsTo hpath hleaf (hlo.trans hge) (by omega)

/-- **`maple_find`** looks at the areas of the leaf for the address. -/
theorem mapleFind_leaf (h : s.Tree L tight height root vs free)
    (hpath : s.Path L tight height root 0 lo hi par leaf vL vR up)
    (hleaf : s.Subtree L tight 0 lo hi par leaf w) (hlo : lo ≤ addr.toNat) (hhi : addr.toNat < hi) :
    mapleFind mapleNodeSlots addr s =
      .ok ((w.map s.vmas).find? fun a => decide (a.Holds addr)) := by
  obtain ⟨root', hroot, hres⟩ := h.leadsTo hpath hleaf hlo hhi
  rw [mapleFind, hroot]
  dsimp only
  rw [hres, MapleM.ok_bind]
  dsimp only
  rw [hleaf.2.2.entries.findAddr, List.map_map]
  rfl

/-- `maple_find` returns an area of the leaf when it holds the address. -/
theorem mapleFind_eq (h : s.Tree L tight height root vs free)
    (hpath : s.Path L tight height root 0 lo hi par leaf vL vR up)
    (hleaf : s.Subtree L tight 0 lo hi par leaf w) (hlo : lo ≤ addr.toNat) (hhi : addr.toNat < hi)
    {v : ℕ} (hv : v ∈ w) (hholds : (s.vmas v).Holds addr) :
    mapleFind mapleNodeSlots addr s = .ok (some (s.vmas v)) := by
  rw [mapleFind_leaf h hpath hleaf hlo hhi]
  exact congrArg _ (hleaf.2.2.separated.findAt_eq_some_iff.mpr ⟨List.mem_map_of_mem hv, hholds⟩)

/-- **What `maple_find` returns is stored** and holds the address. -/
theorem MapleState.Tree.find_stored (h : s.Tree L tight height root vs free) {a : VmArea}
    (hfind : mapleFind mapleNodeSlots addr s = .ok (some a)) :
    ∃ v, s.IsStored v ∧ s.vmas v = a ∧ a.Holds addr := by
  obtain ⟨lo, hi, par, leaf, vL, w, vR, up, -, hpath, hleaf, hlo, hhi, rfl⟩ := h.leads addr
  rw [mapleFind_leaf h hpath hleaf hlo hhi] at hfind
  obtain ⟨ha, hholds⟩ := hleaf.2.2.separated.findAt_eq_some_iff.mp (Except.ok.inj hfind)
  obtain ⟨v, hv, rfl⟩ := List.mem_map.mp ha
  exact ⟨v, h.stored_iff.mpr (by simp [hv]), rfl, hholds⟩

/-- Every stored area is in a leaf, which its start leads to. -/
theorem MapleState.Tree.leaf_of_stored (h : s.Tree L tight height root vs free) {v : ℕ}
    (hv : s.IsStored v) :
    ∃ lo hi par leaf vL w vR up, s.LeadsTo (s.vmas v).start leaf ∧
      s.Path L tight height root 0 lo hi par leaf vL vR up ∧ s.Subtree L tight 0 lo hi par leaf w ∧
      lo ≤ (s.vmas v).lo ∧ (s.vmas v).lo < hi ∧ v ∈ w := by
  obtain ⟨leaf, hn, hisLeaf, hmem⟩ := hv
  obtain ⟨k, lo, hi, par, vL, vR, up, w, hpath, hleaf, rfl⟩ := h.place hn
  cases k with
  | succ k =>
    obtain ⟨-, -, l, hchildren, -⟩ := hleaf
    rw [hchildren.isLeaf] at hisLeaf
    exact absurd hisLeaf (by decide)
  | zero =>
    have hvw : v ∈ w := hleaf.2.2.mem_iff.mp hmem
    obtain ⟨hlo, hhi, -⟩ := hleaf.inside hvw
    exact ⟨lo, hi, par, leaf, vL, w, vR, up, h.leadsTo hpath hleaf hlo hhi, hpath, hleaf, hlo, hhi, hvw⟩

/-- **`maple_find` finds every stored area at its start.** -/
theorem MapleState.Tree.find_start (h : s.Tree L tight height root vs free) {v : ℕ}
    (hv : s.IsStored v) :
    mapleFind mapleNodeSlots (s.vmas v).start s = .ok (some (s.vmas v)) := by
  obtain ⟨lo, hi, par, leaf, vL, w, vR, up, -, hpath, hleaf, hlo, hhi, hvw⟩ := h.leaf_of_stored hv
  have hne : (s.vmas v).lo < (s.vmas v).hi := hleaf.2.2.separated.nonempty _ (List.mem_map_of_mem hvw)
  exact mapleFind_eq h hpath hleaf hlo hhi hvw (VmArea.holds_iff.mpr ⟨le_rfl, hne⟩)

end Search

/-! ### The pools -/

/-- **The pools hold a tree** with the areas `vs`; the entries `vfree` are free, and `g_count` counts the
others. -/
structure MapleState.Stores (s : MapleState) (L : MapleLabels) (tight : Prop) (height root : ℕ)
    (vs free vfree : List ℕ) : Prop where
  tree : s.Tree L tight height root vs free
  chain : VmaChain s.vmas s.vmaFree vfree
  nodup : (vs ++ vfree).Nodup
  total : s.count + vfree.length = mapleMaxVmas
  length_le : vs.length ≤ s.count

/-- Some tree is in the pools. -/
def MapleState.IsTree (s : MapleState) (tight : Prop) : Prop :=
  ∃ L height root vs free vfree, s.Stores L tight height root vs free vfree

section Calls
variable {s : MapleState} {L : MapleLabels} {tight : Prop} {height root lo hi leaf up : ℕ}
  {par : Option ℕ} {vs free vfree vL vR w : List ℕ}

/-- An area is removed from a leaf. -/
theorem MapleState.LeafIn.remove {w₁ w₂ : List ℕ} {v : ℕ}
    (h : s.LeafIn tight lo hi leaf (w₁ ++ v :: w₂)) :
    ∃ n', leafRemoveAt mapleNodeSlots (s.nodes leaf) w₁.length = .ok n' ∧
      n'.parent = (s.nodes leaf).parent ∧
      ∀ (s' : MapleState) m, s'.nodes m = n' → (∀ u ∈ w₁ ++ w₂, s'.vmas u = s.vmas u) →
        s'.LeafIn tight lo hi m (w₁ ++ w₂) := by
  obtain ⟨n', hres, hpar, hentries⟩ : ∃ n', leafRemoveAt mapleNodeSlots (s.nodes leaf) w₁.length = .ok n' ∧
      n'.parent = (s.nodes leaf).parent ∧
      n'.HasEntries (((w₁ ++ v :: w₂).map fun u => ((s.vmas u).start, u)).eraseIdx w₁.length) :=
    h.entries.removeAt (by simp) h.entries.length_le
  rw [List.eraseIdx_map, List.eraseIdx_append_of_length_le le_rfl, Nat.sub_self,
    List.eraseIdx_cons_zero] at hentries
  have hsub : (w₁ ++ w₂).Sublist (w₁ ++ v :: w₂) := (List.sublist_cons_self v w₂).append_left w₁
  refine ⟨n', hres, hpar, fun s' m hm hvmas => ⟨?_, h.lt, fun u hu => ?_, ?_⟩⟩
  · rw [hm, List.map_congr_left fun u hu => by rw [hvmas u hu]]
    exact hentries
  · rw [hvmas u hu]
    exact h.inside u (hsub.subset hu)
  · rw [List.map_congr_left hvmas]
    exact h.separated.sublist (hsub.map s.vmas)

/-- **An area goes** from its leaf to the free list; all others stay as they are. -/
theorem MapleState.Stores.takeOut {w₁ w₂ : List ℕ} {v : ℕ} {n' : MapleNode}
    (h : s.Stores L tight height root (vL ++ ((w₁ ++ v :: w₂) ++ vR)) free vfree)
    (hlabel : L leaf = some (0, lo)) (hlt : lo < hi)
    (hpath : s.Path L tight height root 0 lo hi par leaf vL vR up) (hpar : n'.parent = par)
    (hleaf : ∀ (s' : MapleState) m, s'.nodes m = n' → (∀ u ∈ w₁ ++ w₂, s'.vmas u = s.vmas u) →
      s'.LeafIn tight lo hi m (w₁ ++ w₂))
    {s' : MapleState} (hs' : s' = { (vmaFreeEntry v s).setNode leaf n' with count := s.count - 1 }) :
    s'.Stores L tight height root (vL ++ ((w₁ ++ w₂) ++ vR)) free (v :: vfree) ∧
      ∀ u ∈ vL ++ ((w₁ ++ w₂) ++ vR), s'.vmas u = s.vmas u := by
  have hself : s'.nodes leaf = n' := by
    rw [hs']
    exact Function.update_self ..
  have hother : ∀ m, m ≠ leaf → s'.nodes m = s.nodes m := fun m hm => by
    rw [hs']
    exact Function.update_of_ne hm ..
  have hvma : ∀ u, u ≠ v → s'.vmas u = s.vmas u := fun u hu => by
    rw [hs']
    exact Function.update_of_ne hu ..
  -- the entry goes from the tree to the free list, so the two stay disjoint
  have hperm : (vL ++ ((w₁ ++ v :: w₂) ++ vR)).Perm (v :: (vL ++ ((w₁ ++ w₂) ++ vR))) :=
    ((List.perm_middle.append_right vR).append_left vL).trans List.perm_middle
  have hnodup : (vL ++ ((w₁ ++ w₂) ++ vR) ++ v :: vfree).Nodup :=
    (List.perm_middle.trans (hperm.symm.append_right vfree)).nodup_iff.mpr h.nodup
  have hkeep : ∀ u ∈ vL ++ ((w₁ ++ w₂) ++ vR), s'.vmas u = s.vmas u := by
    intro u hu
    refine hvma u ?_
    rintro rfl
    exact (List.nodup_append'.mp hnodup).2.2 hu List.mem_cons_self
  have hlen := hperm.length_eq
  have hcount := h.length_le
  have htotal := h.total
  rw [List.length_cons] at hlen
  -- only the leaf has changed, and its range is as it was
  have hpath' : s'.Path L tight height root 0 lo hi par leaf vL vR up := by
    refine hpath.congr (fun m _ hno => ⟨hother m ?_, rfl⟩) fun u hu => hkeep u ?_
    · rintro rfl
      exact hno ⟨0, lo, hlabel, Nat.one_pos, le_rfl, hlt⟩
    · rw [List.mem_append, List.mem_append]
      rcases List.mem_append.mp hu with hu | hu
      exacts [.inl hu, .inr (.inr hu)]
  have hin : s'.LeafIn tight lo hi leaf (w₁ ++ w₂) := by
    refine hleaf s' leaf hself fun u hu => hkeep u ?_
    rw [List.mem_append, List.mem_append]
    exact .inr (.inl hu)
  refine ⟨⟨⟨?_, hpath'.plug ⟨hlabel, by rw [hself, hpar], hin⟩, ?_⟩, ?_, hnodup, ?_, ?_⟩, hkeep⟩
  · rw [hs']
    exact h.tree.root_eq
  · refine h.tree.free.congr (by rw [hs']; rfl) fun m hm => hother m ?_
    exact (h.tree.free.ne_of_label hm hlabel).symm
  · refine ⟨by rw [hs']; rfl, s.vmaFree, ?_, h.chain.congr fun u hu => hvma u ?_⟩
    · rw [hs']
      show (update s.vmas v _ v).name = _
      rw [Function.update_self]
    · rintro rfl
      exact (List.nodup_cons.mp (List.nodup_append'.mp hnodup).2.1).1 hu
  · rw [hs', List.length_cons]
    dsimp only
    omega
  · rw [hs']
    dsimp only
    omega

/-- **`maple_remove`** takes out the area that begins at the address. -/
theorem MapleState.Stores.remove (h : s.Stores L tight height root vs free vfree) (start : U32) :
    (mapleRemove mapleNodeSlots start s = .ok (s, -1) ∧ ∀ v ∈ vs, (s.vmas v).start ≠ start) ∨
    ∃ s' v vs', mapleRemove mapleNodeSlots start s = .ok (s', 0) ∧ (s.vmas v).start = start ∧
      s'.Stores L tight height root vs' free (v :: vfree) ∧ vs.Perm (v :: vs') ∧
      ∀ u ∈ vs', s'.vmas u = s.vmas u := by
  obtain ⟨lo, hi, par, leaf, vL, w, vR, up, ⟨root', hroot, hleads⟩, hpath, hleaf, hlo, hhi, rfl⟩ :=
    h.tree.leads start
  obtain ⟨hlabel, hpar, hin⟩ := hleaf
  rcases hin.entries.findStart (s := s) start with ⟨hnone, hne⟩ | ⟨l₁, e, l₂, hl, hstart, hsome⟩
  · -- only the leaf can have an area that begins there
    refine .inl ⟨?_, fun v hv heq => ?_⟩
    · rw [mapleRemove, hroot]
      dsimp only
      rw [hleads, MapleM.ok_bind]
      dsimp only
      rw [hnone]
      rfl
    · have hv' : (s.vmas v).lo = start.toNat := congrArg BitVec.toNat heq
      rcases List.mem_append.mp hv with hv | hv
      · have := (hpath.front hv).1
        omega
      rcases List.mem_append.mp hv with hv | hv
      · exact hne _ (List.mem_map_of_mem hv) heq
      · have := hpath.behind hv
        omega
  -- the entry found splits the areas of the leaf
  obtain ⟨w₁, w₃, rfl, rfl, hcons⟩ := List.map_eq_append_iff.mp hl
  obtain ⟨v, w₂, rfl, rfl, rfl⟩ := List.map_eq_cons_iff.mp hcons
  rw [List.length_map] at hsome
  obtain ⟨n', hres, hpar', hin'⟩ := hin.remove
  obtain ⟨hstores, hkeep⟩ := h.takeOut hlabel hin.lt hpath (hpar'.trans hpar) hin' rfl
  refine .inr ⟨_, v, _, ?_, hstart, hstores, ?_, hkeep⟩
  · rw [mapleRemove, hroot]
    dsimp only
    rw [hleads, MapleM.ok_bind]
    dsimp only
    rw [hsome, MapleM.ok_bind]
    dsimp only
    rw [show (vmaFreeEntry v s).nodes = s.nodes from rfl, hres, MapleM.ok_bind]
    rfl
  · exact ((List.perm_middle.append_right vR).append_left vL).trans List.perm_middle

end Calls

end Microkernel.Vma
