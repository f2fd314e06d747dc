import Microkernel.Vma.MapleCalls

/-! # Calls of `maple_add`

When `maple_add` inserts, when it fails, and which areas the tree has afterwards. The nodes for the splits
are counted beforehand: the leaf takes one, every full node above takes one, and so does a new root.

* **`PassesChecks`, `RunsOut`, `AsBefore`** — the three things that decide about a call, each a condition
  on the state before it: the checks, the nodes that its splits would take, and what it means that nothing
  happened.
* **`Stores.add_noNode`, `Stores.add_inserts`** — a failure that commits nothing, and an insertion. When
  the nodes run out on the way up the call inserts its area all the same.
-/

namespace Microkernel.Vma

open Function (update)

/-- **The checks of `maple_add`**: there is room, the range is valid, and no area of the leaf for its start
meets it. -/
def MapleState.PassesChecks (s : MapleState) (start stop : U32) : Prop :=
  s.count < mapleMaxVmas ∧ (start < stop ∧ start.PageAligned ∧ stop.PageAligned) ∧
    ∀ leaf, s.LeadsTo start leaf → ∀ i < (s.nodes leaf).nrEntries.toNat, ∀ v,
      (s.nodes leaf).slots i = some v → ¬ (start < (s.vmas v).stop ∧ (s.vmas v).start < stop)

/-- The leaf for an address has no place left. -/
def MapleState.LeafFull (s : MapleState) (start : U32) : Prop :=
  ∃ leaf, s.LeadsTo start leaf ∧ (s.nodes leaf).nrEntries.toNat = mapleNodeSlots

/-- The nodes that the splits above a node take: one for each full node on the way up, and one for a new
root. -/
def nodesAbove (s : MapleState) : ℕ → ℕ → ℕ
  | 0, _ => 0
  | n + 1, child =>
      match (s.nodes child).parent with
      | none => 1
      | some parent =>
          if (s.nodes parent).nrEntries.toNat < mapleNodeSlots then 0 else nodesAbove s n parent + 1

/-- The number of free nodes from one on. -/
def freeNodes (s : MapleState) : ℕ → Option ℕ → ℕ
  | 0, _ => 0
  | _ + 1, none => 0
  | n + 1, some q => freeNodes s n (s.nodes q).parent + 1

/-- **The nodes run out on the way up**: there is one for the full leaf, and too few for the splits above. -/
def MapleState.RunsOut (s : MapleState) (start : U32) : Prop :=
  ∃ leaf, s.LeadsTo start leaf ∧ (s.nodes leaf).nrEntries.toNat = mapleNodeSlots ∧ s.nodeFree ≠ none ∧
    freeNodes s mapleMaxNodes s.nodeFree ≤ nodesAbove s mapleMaxNodes leaf

/-- **Nothing is committed**: the tree, the count and the free entries are as before. -/
structure MapleState.AsBefore (s s' : MapleState) : Prop where
  nodes : s'.nodes = s.nodes
  nodeFree : s'.nodeFree = s.nodeFree
  root : s'.root = s.root
  count : s'.count = s.count
  vmaFree : s'.vmaFree = s.vmaFree
  /-- The links of the free entries. -/
  names : ∀ v, (s'.vmas v).name = (s.vmas v).name
  stored : ∀ v, s.IsStored v → s'.vmas v = s.vmas v

section Count
variable {s : MapleState} {L : MapleLabels} {tight : Prop} {k height root lo hi c up : ℕ}
  {par : Option ℕ} {free vL vR : List ℕ}

/-- The nodes for the splits above a place. -/
theorem MapleState.Path.nodesAbove_eq (h : s.Path L tight height root k lo hi par c vL vR up)
    (hpar : (s.nodes c).parent = par) {n : ℕ} (hn : height < n + k) : nodesAbove s n c = up := by
  induction h generalizing n with
  | root =>
    obtain ⟨n, rfl⟩ := Nat.exists_eq_succ_of_ne_zero (by omega : n ≠ 0)
    rw [nodesAbove, hpar]
  | child above label parent children front lt behind ih =>
    have hle := above.level_le
    obtain ⟨n, rfl⟩ := Nat.exists_eq_succ_of_ne_zero (by omega : n ≠ 0)
    rw [nodesAbove, hpar]
    dsimp only
    rw [children.nrEntries]
    split
    · rfl
    · rw [ih parent (by omega)]

/-- The length of the free list. -/
theorem NodeChain.freeNodes_eq {h : Option ℕ} (hl : NodeChain s.nodes h free) {n : ℕ}
    (hn : free.length ≤ n) : freeNodes s n h = free.length := by
  induction free generalizing h n with
  | nil =>
    obtain rfl : h = none := hl
    cases n <;> rfl
  | cons q free ih =>
    obtain ⟨rfl, hl⟩ := hl
    rw [List.length_cons] at hn
    obtain ⟨n, rfl⟩ := Nat.exists_eq_succ_of_ne_zero (by omega : n ≠ 0)
    rw [freeNodes, ih hl (by omega), List.length_cons]

/-- No more free nodes than the pool has. -/
theorem MapleState.FreeNodes.length_le (h : s.FreeNodes L free) : free.length ≤ mapleMaxNodes := by
  have hsub : free ⊆ List.range mapleMaxNodes := fun n hn => List.mem_range.mpr (h.below n (.inl hn))
  simpa using (h.nodup.subperm hsub).length_le

/-- The free list is empty when its head is `NULL`. -/
theorem MapleState.FreeNodes.eq_nil_iff (h : s.FreeNodes L free) : s.nodeFree = none ↔ free = [] := by
  cases free with
  | nil => exact ⟨fun _ => rfl, fun _ => h.chain⟩
  | cons q free => simp [h.chain.1]

end Count

section Add
variable {s : MapleState} {L : MapleLabels} {tight : Prop} {height root lo hi leaf up : ℕ}
  {par : Option ℕ} {vs free vfree vL vR w : List ℕ} {start stop : U32}

/-- The overlap check of `maple_add` looks at the areas of the leaf. -/
theorem MapleState.LeafIn.overlaps (h : s.LeafIn tight lo hi leaf w) :
    leafOverlaps s (s.nodes leaf) start stop (s.nodes leaf).nrEntries.toNat 0 =
      .ok (decide (∃ v ∈ w, start < (s.vmas v).stop ∧ (s.vmas v).start < stop)) := by
  rw [h.entries.overlaps, List.any_map]
  congr 1
  rw [Bool.eq_iff_iff, List.any_eq_true, decide_eq_true_iff]
  simp

/-- The checks of `maple_add`, for the areas of the leaf. -/
theorem MapleState.Tree.passesChecks_iff (h : s.Tree L tight height root vs free)
    (hpath : s.Path L tight height root 0 lo hi par leaf vL vR up)
    (hleaf : s.Subtree L tight 0 lo hi par leaf w) (hlo : lo ≤ start.toNat) (hhi : start.toNat < hi) :
    s.PassesChecks start stop ↔ s.count < mapleMaxVmas ∧
      (start < stop ∧ start.PageAligned ∧ stop.PageAligned) ∧
      ¬ ∃ v ∈ w, start < (s.vmas v).stop ∧ (s.vmas v).start < stop := by
  have hleads := h.leadsTo hpath hleaf hlo hhi
  refine and_congr_right fun _ => and_congr_right fun _ => ?_
  constructor
  · rintro hno ⟨v, hv, hover⟩
    obtain ⟨i, hi, hslot⟩ := hleaf.2.2.mem_iff.mpr hv
    exact hno leaf hleads i hi v hslot hover
  · intro hno leaf' hleads' i hi v hslot hover
    obtain rfl := hleads.unique hleads'
    exact hno ⟨v, hleaf.2.2.mem_iff.mp ⟨i, hi, hslot⟩, hover⟩

/-- A call that fails a check changes nothing. -/
theorem MapleState.Tree.add_rejects (h : s.Tree L tight height root vs free)
    (hno : ¬ s.PassesChecks start stop) (flags : U32) (name : NamePtr) :
    mapleAdd mapleNodeSlots start stop flags name s = .ok (s, -1) := by
  obtain ⟨lo, hi, par, leaf, vL, w, vR, up, ⟨root', hroot, hres⟩, hpath, hleaf, hlo, hhi, -⟩ :=
    h.leads start
  rw [h.passesChecks_iff hpath hleaf hlo hhi] at hno
  refine mapleAdd_rejects hroot hres hleaf.2.2.overlaps ?_
  rwa [decide_eq_false_iff_not]

/-- **A call that passes the checks** takes a free entry for its area and inserts it. -/
theorem MapleState.Stores.add_passes (h : s.Stores L tight height root vs free vfree)
    (hpath : s.Path L tight height root 0 lo hi par leaf vL vR up)
    (hleaf : s.Subtree L tight 0 lo hi par leaf w) (hlo : lo ≤ start.toNat) (hhi : start.toNat < hi)
    (hvs : vs = vL ++ (w ++ vR)) (hpass : s.PassesChecks start stop) (flags : U32) (name : NamePtr) :
    ∃ v vfree' next, vfree = v :: vfree' ∧ (s.vmas v).name = NamePtr.ofEntry next ∧
      ∀ t : MapleState, t = { s with
        vmas := update s.vmas v ⟨start, stop, flags, name⟩, vmaFree := next } →
      mapleAdd mapleNodeSlots start stop flags name s = mapleInsert mapleNodeSlots leaf v start t ∧
      t.Tree L tight height root vs free ∧ VmaChain t.vmas t.vmaFree vfree' ∧
      t.Path L tight height root 0 lo hi par leaf vL vR up ∧ t.Subtree L tight 0 lo hi par leaf w ∧
      (t.vmas v).Valid ∧ ∀ u ∈ w, ¬ (t.vmas v).Overlaps (t.vmas u) := by
  obtain ⟨root', hroot, hres⟩ := h.tree.leadsTo hpath hleaf hlo hhi
  obtain ⟨hcount, hvalid, hno⟩ := (h.tree.passesChecks_iff hpath hleaf hlo hhi).mp hpass
  have htotal := h.total
  cases vfree with
  | nil =>
    rw [List.length_nil] at htotal
    omega
  | cons v vfree =>
    obtain ⟨next, hname, hchain, halloc⟩ := h.chain.alloc
    have hnodup := List.nodup_middle.mp h.nodup
    -- writing the free entry changes no stored area and no link of the others
    have hnotv : ∀ u, u ∈ vs ++ vfree → u ≠ v := by
      rintro u hu rfl
      exact (List.nodup_cons.mp hnodup).1 hu
    refine ⟨v, vfree, next, rfl, hname, fun t ht => ?_⟩
    have hself : t.vmas v = ⟨start, stop, flags, name⟩ := by
      rw [ht]
      exact Function.update_self ..
    have hother : ∀ u ∈ vs ++ vfree, t.vmas u = s.vmas u := fun u hu => by
      rw [ht]
      exact Function.update_of_ne (hnotv u hu) ..
    have hsame : ∀ u ∈ vs, t.vmas u = s.vmas u := fun u hu => hother u (List.mem_append_left vfree hu)
    have hnodes : ∀ m, t.nodes m = s.nodes m := fun m => by rw [ht]
    have hw : ∀ u ∈ w, u ∈ vs := fun u hu => by simp [hvs, hu]
    refine ⟨?_, ⟨by rw [ht]; exact h.tree.root_eq,
      h.tree.subtree.congr (fun m _ => ⟨hnodes m, rfl⟩) hsame,
      h.tree.free.congr (by rw [ht]) fun m _ => hnodes m⟩, ?_,
      hpath.congr (fun m _ _ => ⟨hnodes m, rfl⟩) fun u hu => hsame u ?_,
      hleaf.congr (fun m _ => ⟨hnodes m, rfl⟩) fun u hu => hsame u (hw u hu), ?_, fun u hu hover => ?_⟩
    · rw [ht]
      exact mapleAdd_inserts hroot hres (by rw [hleaf.2.2.overlaps, decide_eq_false hno]) hcount hvalid halloc
    · rw [ht]
      refine hchain.congr fun u hu => ?_
      exact Function.update_of_ne (hnotv u (List.mem_append_right vs hu)) ..
    · rw [hvs, List.mem_append, List.mem_append]
      rcases List.mem_append.mp hu with hu | hu
      exacts [.inl hu, .inr (.inr hu)]
    · rw [hself]
      exact hvalid
    · rw [hself, hsame u (hw u hu), VmArea.overlaps_iff] at hover
      exact hno ⟨u, hu, hover⟩

/-- The leaf for an address is full when it has as many areas as places. -/
theorem MapleState.Tree.leafFull_iff (h : s.Tree L tight height root vs free)
    (hpath : s.Path L tight height root 0 lo hi par leaf vL vR up)
    (hleaf : s.Subtree L tight 0 lo hi par leaf w) (hlo : lo ≤ start.toNat) (hhi : start.toNat < hi) :
    s.LeafFull start ↔ w.length = mapleNodeSlots := by
  have hleads := h.leadsTo hpath hleaf hlo hhi
  have hnr : (s.nodes leaf).nrEntries.toNat = w.length := by
    rw [hleaf.2.2.entries.nrEntries, List.length_map]
  constructor
  · rintro ⟨leaf', hleads', hfull⟩
    obtain rfl := hleads.unique hleads'
    rw [← hnr, hfull]
  · exact fun hfull => ⟨leaf, hleads, hnr.trans hfull⟩

/-- **A full leaf and no free node**: the call fails, and nothing is committed. -/
theorem MapleState.Stores.add_noNode (h : s.Stores L tight height root vs free vfree)
    (hpass : s.PassesChecks start stop) (hfull : s.LeafFull start) (hnone : s.nodeFree = none)
    (flags : U32) (name : NamePtr) :
    ∃ s', mapleAdd mapleNodeSlots start stop flags name s = .ok (s', -1) ∧ s.AsBefore s' ∧
      s'.Stores L tight height root vs free vfree := by
  obtain ⟨lo, hi, par, leaf, vL, w, vR, up, -, hpath, hleaf, hlo, hhi, hvs⟩ := h.tree.leads start
  obtain ⟨v, vfree', next, rfl, hname, hadd⟩ :=
    h.add_passes hpath hleaf hlo hhi hvs hpass flags name
  obtain ⟨t, ht⟩ : ∃ t : MapleState, t = { s with
      vmas := update s.vmas v ⟨start, stop, flags, name⟩, vmaFree := next } := ⟨_, rfl⟩
  obtain ⟨hres, htree, hchain, -, hleaf', -, -⟩ := hadd t ht
  have hwlen := (h.tree.leafFull_iff hpath hleaf hlo hhi).mp hfull
  have hnr : ¬ (t.nodes leaf).nrEntries.toNat < mapleNodeSlots := by
    rw [hleaf'.2.2.entries.nrEntries, List.length_map, hwlen]
    exact lt_irrefl _
  have halloc : nodeAlloc t = (t, none) := by
    unfold nodeAlloc
    rw [show t.nodeFree = none by rw [ht]; exact hnone]
  obtain ⟨s', hs'⟩ : ∃ s', s' = vmaFreeEntry v t := ⟨_, rfl⟩
  have hnodes : s'.nodes = s.nodes := by rw [hs', ht]; rfl
  have hother : ∀ u, u ≠ v → s'.vmas u = s.vmas u := by
    intro u hu
    rw [hs', ht]
    show update (update s.vmas v _) v _ u = _
    rw [Function.update_of_ne hu, Function.update_of_ne hu]
  -- the entry goes back to where it came from, with the same link
  have hself : (s'.vmas v).name = (s.vmas v).name := by
    rw [hs', ht, hname]
    show (update (update s.vmas v _) v _ v).name = _
    rw [Function.update_self]
  have hnames : ∀ u, (s'.vmas u).name = (s.vmas u).name := by
    intro u
    by_cases hu : u = v
    · rw [hu, hself]
    · rw [hother u hu]
  have hvmaFree : s'.vmaFree = s.vmaFree := by
    rw [hs', h.chain.1]
    rfl
  have hnodup := List.nodup_middle.mp h.nodup
  have hnotv : ∀ u ∈ vs, u ≠ v := by
    rintro u hu rfl
    exact (List.nodup_cons.mp hnodup).1 (List.mem_append_left vfree' hu)
  have hkeep : ∀ u ∈ vs, s'.vmas u = s.vmas u := fun u hu => hother u (hnotv u hu)
  refine ⟨s', ?_, ⟨hnodes, by rw [hs', ht]; rfl, by rw [hs', ht]; rfl, by rw [hs', ht]; rfl, hvmaFree,
    hnames, fun u hu => hkeep u (h.tree.stored_iff.mp hu)⟩, ⟨⟨?_, ?_, ?_⟩, ?_, h.nodup, ?_, ?_⟩⟩
  · rw [hres, mapleInsert, if_neg hnr, halloc, hs']
    rfl
  · rw [hs', ht]
    exact h.tree.root_eq
  · exact h.tree.subtree.congr (fun m _ => ⟨by rw [hnodes], rfl⟩) hkeep
  · exact h.tree.free.congr (by rw [hs', ht]; rfl) fun m _ => by rw [hnodes]
  · rw [hvmaFree]
    exact h.chain.congr_name fun u _ => hnames u
  · rw [show s'.count = s.count by rw [hs', ht]; rfl]
    exact h.total
  · rw [show s'.count = s.count by rw [hs', ht]; rfl]
    exact h.length_le

/-- **A place in the leaf or a free node**: the call inserts the area. The other areas stay, unless the
nodes run out on the way up. -/
theorem MapleState.Stores.add_inserts (h : s.Stores L tight height root vs free vfree)
    (hpass : s.PassesChecks start stop) (hplace : ¬ s.LeafFull start ∨ s.nodeFree ≠ none)
    (hstay : tight → s.StaysInLeaf start stop) (flags : U32) (name : NamePtr) :
    ∃ s' v L' height' root' vs' free' vfree',
      mapleAdd mapleNodeSlots start stop flags name s = .ok (s', 0) ∧
      s'.Stores L' tight height' root' vs' free' vfree' ∧ v ∉ vs ∧ vs'.Subperm (v :: vs) ∧
      s'.vmas v = ⟨start, stop, flags, name⟩ ∧ (∀ u ∈ vs, s'.vmas u = s.vmas u) ∧
      (¬ s.RunsOut start → vs'.Perm (v :: vs)) := by
  obtain ⟨lo, hi, par, leaf, vL, w, vR, up, hleads, hpath, hleaf, hlo, hhi, hvs⟩ := h.tree.leads start
  obtain ⟨v, vfree', next, rfl, -, hadd⟩ := h.add_passes hpath hleaf hlo hhi hvs hpass flags name
  obtain ⟨t, ht⟩ : ∃ t : MapleState, t = { s with
      vmas := update s.vmas v ⟨start, stop, flags, name⟩, vmaFree := next } := ⟨_, rfl⟩
  obtain ⟨hres, htree, hchain, hpath', hleaf', hvalid, hno⟩ := hadd t ht
  have hself : t.vmas v = ⟨start, stop, flags, name⟩ := by
    rw [ht]
    exact Function.update_self ..
  have hend : tight → (t.vmas v).hi ≤ hi := by
    intro hti
    rw [hself]
    exact h.tree.stop_le hpath hleaf hlo hhi (hstay hti)
  have hnodup := List.nodup_middle.mp h.nodup
  have hnotv : ∀ u ∈ vs, u ≠ v := by
    rintro u hu rfl
    exact (List.nodup_cons.mp hnodup).1 (List.mem_append_left vfree' hu)
  have hkeep : ∀ u ∈ vs, t.vmas u = s.vmas u := fun u hu => by
    rw [ht]
    exact Function.update_of_ne (hnotv u hu) ..
  -- both ways to insert keep the pools
  have hpools : ∀ {s' : MapleState} {L' : MapleLabels} {height' root' : ℕ} {vs' free' : List ℕ},
      s'.vmas = t.vmas → s'.vmaFree = t.vmaFree → s'.count = t.count + 1 →
      s'.Tree L' tight height' root' vs' free' → vs'.Subperm (v :: vs) →
      s'.Stores L' tight height' root' vs' free' vfree' := by
    intro s' L' height' root' vs' free' hvmas hvmaFree hcount htree' hsub
    have hlen := hsub.length_le
    have hle := h.length_le
    have htotal := h.total
    have hcount' : t.count = s.count := by rw [ht]
    rw [List.length_cons] at hlen htotal
    refine ⟨htree', by rw [hvmas, hvmaFree]; exact hchain, ?_, by omega, by omega⟩
    obtain ⟨l, hperm, hsublist⟩ := (List.subperm_append_right vfree').mpr hsub
    exact hperm.nodup_iff.mp (hnodup.sublist hsublist)
  have hlo' : lo ≤ (t.vmas v).lo := by
    rw [hself]
    exact hlo
  have hhi' : (t.vmas v).lo < hi := by
    rw [hself]
    exact hhi
  have hinsert : ∃ s' L' height' root' vs' free',
      mapleInsert mapleNodeSlots leaf v (t.vmas v).start t = .ok (s', 0) ∧ s'.vmas = t.vmas ∧
      s'.vmaFree = t.vmaFree ∧ s'.count = t.count + 1 ∧ s'.Tree L' tight height' root' vs' free' ∧
      vs'.Subperm (v :: vs) ∧ (¬ s.RunsOut start → vs'.Perm (v :: vs)) := by
    by_cases hfull : s.LeafFull start
    · have hwlen := (h.tree.leafFull_iff hpath hleaf hlo hhi).mp hfull
      cases free with
      | nil =>
        refine absurd hfull (hplace.resolve_right fun hno => hno ?_)
        exact h.tree.free.chain
      | cons q free =>
        obtain ⟨s', L', height', root', free', vs', hins, hvmas, hvmaFree, hcount, htree', hsub, hall⟩ :=
          mapleInsert_split htree hpath' hleaf' hvs hwlen hvalid hno hlo' hhi' hend
        refine ⟨s', L', height', root', vs', free', hins, hvmas, hvmaFree, hcount, htree', hsub,
          fun hout => hall ?_⟩
        by_contra hgt
        have habove : nodesAbove s mapleMaxNodes leaf = up :=
          hpath.nodesAbove_eq hleaf.parent h.tree.height_lt
        refine hout ⟨leaf, hleads, ?_, fun hnone => ?_, ?_⟩
        · rw [hleaf.2.2.entries.nrEntries, List.length_map, hwlen]
        · exact absurd (h.tree.free.eq_nil_iff.mp hnone) (List.cons_ne_nil q free)
        · rw [h.tree.free.chain.freeNodes_eq h.tree.free.length_le, habove, List.length_cons]
          omega
    · have hwlen : w.length < mapleNodeSlots := by
        have hle := hleaf.2.2.entries.length_le
        rw [List.length_map] at hle
        exact lt_of_le_of_ne hle fun heq => hfull ((h.tree.leafFull_iff hpath hleaf hlo hhi).mpr heq)
      obtain ⟨s', vs', hins, hvmas, hvmaFree, hcount, htree', hperm⟩ :=
        mapleInsert_room htree hpath' hleaf' hvs hwlen hvalid hno hlo' hhi' hend
      exact ⟨s', L, height, root, vs', free, hins, hvmas, hvmaFree, hcount, htree', hperm.subperm,
        fun _ => hperm⟩
  obtain ⟨s', L', height', root', vs', free', hins, hvmas, hvmaFree, hcount, htree', hsub, hall⟩ :=
    hinsert
  rw [hself] at hins
  refine ⟨s', v, L', height', root', vs', free', vfree', hres.trans hins,
    hpools hvmas hvmaFree hcount htree' hsub, fun hv => hnotv v hv rfl, hsub, ?_, fun u hu => ?_, hall⟩
  · rw [hvmas, hself]
  · rw [hvmas, hkeep u hu]

end Add

end Microkernel.Vma
