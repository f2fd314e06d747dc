import Microkernel.Lib.RangeChain
import Microkernel.Vma.MapleChildren

/-! # The pool as a tree

Which nodes of the pool form a B+ tree: each node covers a range of addresses, which its children divide
at its keys, and a leaf has the areas that begin in its range. A label tells the level of a node and where
its range begins, so nodes of different places are different. A node with the way to it from the root is a
place where the tree can change.

* **`LeafIn`, `Subtree`** — a leaf and a subtree for a range, with the areas in it.
* **`Path`** — the way from the root to a place, with the areas in front of it and behind it.
* **`Path.plug`, `Subtree.frame`** — a tree in a place is part of the whole, and depends on its own nodes
  alone.
-/

namespace Microkernel.Vma

open Function (update)

/-- For every node of the tree its level, 0 for the leaves, and the first address of its range. -/
abbrev MapleLabels := ℕ → Option (ℕ × ℕ)

/-- A node below level `k`, whose range begins in `[lo, hi)`. -/
def MapleLabels.Below (L : MapleLabels) (k lo hi m : ℕ) : Prop :=
  ∃ j x, L m = some (j, x) ∧ j < k ∧ lo ≤ x ∧ x < hi

/-- **A leaf for the range `[lo, hi)`** with the areas `vs`: they begin in the range, and with `tight`
they end in it. -/
structure MapleState.LeafIn (s : MapleState) (tight : Prop) (lo hi n : ℕ) (vs : List ℕ) : Prop where
  entries : (s.nodes n).HasEntries (vs.map fun v => ((s.vmas v).start, v))
  lt : lo < hi
  inside : ∀ v ∈ vs, lo ≤ (s.vmas v).lo ∧ (s.vmas v).lo < hi ∧ (tight → (s.vmas v).hi ≤ hi)
  separated : Separated (vs.map s.vmas)

/-- **A tree of nodes for the range `[lo, hi)`** below `n`, whose parent is `par`, with the areas `vs`. -/
def MapleState.Subtree (s : MapleState) (L : MapleLabels) (tight : Prop) :
    ℕ → ℕ → ℕ → Option ℕ → ℕ → List ℕ → Prop
  | 0, lo, hi, par, n, vs =>
      L n = some (0, lo) ∧ (s.nodes n).parent = par ∧ s.LeafIn tight lo hi n vs
  | k + 1, lo, hi, par, n, vs =>
      L n = some (k + 1, lo) ∧ (s.nodes n).parent = par ∧ ∃ l, (s.nodes n).HasChildren l ∧
        RangeChain (fun a b c w => s.Subtree L tight k a b (some n) c w) lo l hi vs

section Subtree
variable {s s' : MapleState} {L L' : MapleLabels} {tight : Prop} {k lo hi n : ℕ} {par : Option ℕ}
  {vs : List ℕ}

/-- The root of a subtree is labelled with its height and its lower bound. -/
theorem MapleState.Subtree.label (h : s.Subtree L tight k lo hi par n vs) : L n = some (k, lo) := by
  cases k <;> exact h.1

/-- Its parent is the node above. -/
theorem MapleState.Subtree.parent (h : s.Subtree L tight k lo hi par n vs) :
    (s.nodes n).parent = par := by
  cases k <;> exact h.2.1

/-- A subtree has a range that is not empty. -/
theorem MapleState.Subtree.lt (h : s.Subtree L tight k lo hi par n vs) : lo < hi := by
  induction k generalizing lo hi par n vs with
  | zero => exact h.2.2.lt
  | succ k ih =>
    obtain ⟨-, -, l, hl, hchain⟩ := h
    exact hchain.lt (fun a b c w hc => ih hc) (List.ne_nil_of_length_pos hl.length_pos)

/-- The bound behind the last child is not stored. -/
theorem MapleNode.HasChildren.last {n : MapleNode} {l : List (ℕ × ℕ)} {c b : ℕ}
    (h : n.HasChildren (l ++ [(c, b)])) (b' : ℕ) : n.HasChildren (l ++ [(c, b')]) := by
  have hget : ∀ {i e}, (l ++ [(c, b')])[i]? = some e →
      ∃ e', (l ++ [(c, b)])[i]? = some e' ∧ e'.1 = e.1 ∧ (i + 1 < l.length + 1 → e'.2 = e.2) := by
    intro i e he
    have hi := (List.getElem?_eq_some_iff.mp he).1
    rw [List.length_append, List.length_singleton] at hi
    by_cases hlt : i < l.length
    · rw [List.getElem?_append_left hlt] at he ⊢
      exact ⟨e, he, rfl, fun _ => rfl⟩
    · obtain rfl : i = l.length := by omega
      rw [List.getElem?_append_right le_rfl, Nat.sub_self] at he
      obtain rfl := Option.some.inj he
      exact ⟨(c, b), by simp, rfl, fun hlt' => absurd hlt' (by omega)⟩
  have hlen : (l ++ [(c, b')]).length = (l ++ [(c, b)]).length := by simp
  refine ⟨h.isLeaf, by rw [hlen, h.nrEntries], by rw [hlen]; exact h.length_pos,
    by rw [hlen]; exact h.length_le, fun {i e} he => ?_, fun {i e} he hlt => ?_⟩
  · obtain ⟨e', he', heq, -⟩ := hget he
    rw [h.child he', heq]
  · obtain ⟨e', he', -, heq⟩ := hget he
    rw [h.key he' (by rwa [← hlen]), heq (by simpa using hlt)]

/-- A tree serves a longer range as well. -/
theorem MapleState.Subtree.extend (h : s.Subtree L tight k lo hi par n vs) {hi' : ℕ} (hle : hi ≤ hi') :
    s.Subtree L tight k lo hi' par n vs := by
  induction k generalizing lo hi par n vs with
  | zero =>
    obtain ⟨hlabel, hpar, hleaf⟩ := h
    refine ⟨hlabel, hpar, hleaf.entries, lt_of_lt_of_le hleaf.lt hle, fun v hv => ?_, hleaf.separated⟩
    obtain ⟨h₁, h₂, h₃⟩ := hleaf.inside v hv
    exact ⟨h₁, lt_of_lt_of_le h₂ hle, fun ht => (h₃ ht).trans hle⟩
  | succ k ih =>
    obtain ⟨hlabel, hpar, l, hl, hchain⟩ := h
    -- only the range of the last child grows, and no pivot stands behind the last child
    rcases List.eq_nil_or_concat l with rfl | ⟨l, ⟨c, b⟩, rfl⟩
    · exact absurd hl.length_pos (lt_irrefl 0)
    · rw [List.concat_eq_append] at hl hchain
      obtain ⟨m, v, w, u, h₁, hc, ⟨rfl, rfl⟩, rfl⟩ := RangeChain.middle_iff.mp hchain
      refine ⟨hlabel, hpar, l ++ [(c, hi')], hl.last hi', ?_⟩
      exact RangeChain.middle_iff.mpr ⟨m, v, w, [], h₁, ih hc hle, ⟨rfl, rfl⟩, rfl⟩

/-- **What a tree depends on**: its nodes, their labels and the stored areas; the root may get another
parent. -/
theorem MapleState.Subtree.frame (h : s.Subtree L tight k lo hi par n vs) {par' : Option ℕ}
    (hroot : s'.nodes n = { s.nodes n with parent := par' }) (hlabel : L' n = L n)
    (hrest : ∀ m, L.Below k lo hi m → s'.nodes m = s.nodes m ∧ L' m = L m)
    (hvmas : ∀ v ∈ vs, s'.vmas v = s.vmas v) : s'.Subtree L' tight k lo hi par' n vs := by
  induction k generalizing lo hi par par' n vs with
  | zero =>
    obtain ⟨hl, -, hleaf⟩ := h
    have hmap : vs.map (fun v => ((s'.vmas v).start, v)) = vs.map fun v => ((s.vmas v).start, v) :=
      List.map_congr_left fun v hv => by rw [hvmas v hv]
    refine ⟨hlabel.trans hl, by rw [hroot], ?_, hleaf.lt, fun v hv => ?_, ?_⟩
    · rw [hmap, hroot]
      exact ⟨hleaf.entries.isLeaf, hleaf.entries.nrEntries, hleaf.entries.length_le,
        fun he => hleaf.entries.get he⟩
    · rw [hvmas v hv]
      exact hleaf.inside v hv
    · rw [List.map_congr_left hvmas]
      exact hleaf.separated
  | succ k ih =>
    obtain ⟨hl, -, l, hchildren, hchain⟩ := h
    refine ⟨hlabel.trans hl, by rw [hroot], l, ?_, ?_⟩
    · rw [hroot]
      exact ⟨hchildren.isLeaf, hchildren.nrEntries, hchildren.length_pos, hchildren.length_le,
        fun he => hchildren.child he, fun he => hchildren.key he⟩
    · refine hchain.imp (fun a b c w hc => hc.lt) fun a b c w hw ha hb _ hc => ?_
      have hlt := hc.lt
      have hself := hrest c ⟨k, a, hc.label, Nat.lt_succ_self k, ha, by omega⟩
      refine ih hc ?_ hself.2 ?_ fun v hv => hvmas v (hw v hv)
      · rw [hself.1, ← hc.parent]
      · rintro m ⟨j, x, hm, hj, hax, hxb⟩
        exact hrest m ⟨j, x, hm, by omega, by omega, by omega⟩

/-- A tree whose nodes stay as they are. -/
theorem MapleState.Subtree.congr (h : s.Subtree L tight k lo hi par n vs)
    (hrest : ∀ m, L.Below (k + 1) lo hi m → s'.nodes m = s.nodes m ∧ L' m = L m)
    (hvmas : ∀ v ∈ vs, s'.vmas v = s.vmas v) : s'.Subtree L' tight k lo hi par n vs := by
  have hself := hrest n ⟨k, lo, h.label, Nat.lt_succ_self k, le_rfl, h.lt⟩
  refine h.frame ?_ hself.2 ?_ hvmas
  · rw [hself.1, ← h.parent]
  · rintro m ⟨j, x, hm, hj, hx⟩
    exact hrest m ⟨j, x, hm, by omega, hx⟩

/-- The children of a node with another parent. -/
theorem MapleState.subtrees_frame {l : List (ℕ × ℕ)} {par' : Option ℕ}
    (h : RangeChain (fun a b c w => s.Subtree L tight k a b par c w) lo l hi vs)
    (hroots : ∀ c b, (c, b) ∈ l → s'.nodes c = { s.nodes c with parent := par' } ∧ L' c = L c)
    (hrest : ∀ m, L.Below k lo hi m → s'.nodes m = s.nodes m ∧ L' m = L m)
    (hvmas : ∀ v ∈ vs, s'.vmas v = s.vmas v) :
    RangeChain (fun a b c w => s'.Subtree L' tight k a b par' c w) lo l hi vs := by
  refine h.imp (fun a b c w hc => hc.lt) fun a b c w hw ha hb hmem hc => ?_
  obtain ⟨hnode, hlabel⟩ := hroots c b hmem
  refine hc.frame hnode hlabel ?_ fun v hv => hvmas v (hw v hv)
  rintro m ⟨j, x, hm, hj, hax, hxb⟩
  exact hrest m ⟨j, x, hm, hj, by omega, by omega⟩

/-- The children of a node that stay as they are. -/
theorem MapleState.subtrees_congr {l : List (ℕ × ℕ)}
    (h : RangeChain (fun a b c w => s.Subtree L tight k a b par c w) lo l hi vs)
    (hrest : ∀ m, L.Below (k + 1) lo hi m → s'.nodes m = s.nodes m ∧ L' m = L m)
    (hvmas : ∀ v ∈ vs, s'.vmas v = s.vmas v) :
    RangeChain (fun a b c w => s'.Subtree L' tight k a b par c w) lo l hi vs := by
  refine h.imp (fun a b c w hc => hc.lt) fun a b c w hw ha hb _ hc => ?_
  refine hc.congr ?_ fun v hv => hvmas v (hw v hv)
  rintro m ⟨j, x, hm, hj, hax, hxb⟩
  exact hrest m ⟨j, x, hm, hj, by omega, by omega⟩

/-- Where the trees of the children are labelled. -/
theorem MapleState.subtrees_label {l : List (ℕ × ℕ)}
    (h : RangeChain (fun a b c w => s.Subtree L tight k a b par c w) lo l hi vs) {c b : ℕ}
    (hc : (c, b) ∈ l) : ∃ a, L c = some (k, a) ∧ lo ≤ a ∧ a < hi := by
  obtain ⟨l₁, l₂, rfl⟩ := List.append_of_mem hc
  obtain ⟨m, v, w, u, h₁, hm, h₂, -⟩ := RangeChain.middle_iff.mp h
  exact ⟨m, hm.label, h₁.le fun a b d w hd => hd.lt,
    lt_of_lt_of_le hm.lt (h₂.le fun a b d w hd => hd.lt)⟩

end Subtree

/-! ### Places in a tree -/

/-- **The way from the root to a node** `c` for the range `[lo, hi)` at level `k`: the areas in front of it
and behind it, and how many nodes a split of `c` takes above it. -/
inductive MapleState.Path (s : MapleState) (L : MapleLabels) (tight : Prop) (height root : ℕ) :
    ℕ → ℕ → ℕ → Option ℕ → ℕ → List ℕ → List ℕ → ℕ → Prop
  | root : s.Path L tight height root height 0 (2 ^ 32) none root [] [] 1
  | child {k lo₀ hi₀ p c lo hi up : ℕ} {par : Option ℕ} {l₁ l₂ : List (ℕ × ℕ)}
      {vL vR wL wR : List ℕ} (above : s.Path L tight height root (k + 1) lo₀ hi₀ par p vL vR up)
      (label : L p = some (k + 1, lo₀)) (parent : (s.nodes p).parent = par)
      (children : (s.nodes p).HasChildren (l₁ ++ (c, hi) :: l₂))
      (front : RangeChain (fun a b d w => s.Subtree L tight k a b (some p) d w) lo₀ l₁ lo wL)
      (lt : lo < hi)
      (behind : RangeChain (fun a b d w => s.Subtree L tight k a b (some p) d w) hi l₂ hi₀ wR) :
      s.Path L tight height root k lo hi (some p) c (vL ++ wL) (wR ++ vR)
        (if (l₁ ++ (c, hi) :: l₂).length < mapleNodeSlots then 0 else up + 1)

section Path
variable {s s' : MapleState} {L L' : MapleLabels} {tight : Prop} {height root k lo hi c up : ℕ}
  {par : Option ℕ} {vL vR vs : List ℕ}

/-- No node of a path is above the root. -/
theorem MapleState.Path.level_le (h : s.Path L tight height root k lo hi par c vL vR up) :
    k ≤ height := by
  induction h with
  | root => exact le_rfl
  | child _ _ _ _ _ _ _ ih => exact Nat.le_of_succ_le ih

/-- **A tree in a place** is part of the whole tree. -/
theorem MapleState.Path.plug (h : s.Path L tight height root k lo hi par c vL vR up)
    (hsub : s.Subtree L tight k lo hi par c vs) :
    s.Subtree L tight height 0 (2 ^ 32) none root (vL ++ (vs ++ vR)) := by
  induction h generalizing vs with
  | root => simpa using hsub
  | child above label parent children front lt behind ih =>
    have hnode := ih ⟨label, parent, _, children,
      RangeChain.middle_iff.mpr ⟨_, _, _, _, front, hsub, behind, rfl⟩⟩
    simpa using hnode

/-- **What the way to a place depends on**: the nodes that are not below the place. -/
theorem MapleState.Path.congr (h : s.Path L tight height root k lo hi par c vL vR up)
    (hrest : ∀ m, L m ≠ none → ¬ L.Below (k + 1) lo hi m → s'.nodes m = s.nodes m ∧ L' m = L m)
    (hvmas : ∀ v ∈ vL ++ vR, s'.vmas v = s.vmas v) :
    s'.Path L' tight height root k lo hi par c vL vR up := by
  induction h with
  | root => exact .root
  | @child k lo₀ hi₀ p c lo hi up par l₁ l₂ vL vR wL wR above label parent children front lt behind ih =>
    have hlo := front.le fun a b d w hd => hd.lt
    have hhi := behind.le fun a b d w hd => hd.lt
    have hp := hrest p (by rw [label]; exact Option.some_ne_none _) (by
      rintro ⟨j, x, hm, hj, -⟩
      rw [label] at hm
      simp only [Option.some.injEq, Prod.mk.injEq] at hm
      omega)
    have hside : ∀ a b, (b ≤ lo ∨ hi ≤ a) → ∀ m, L.Below (k + 1) a b m →
        s'.nodes m = s.nodes m ∧ L' m = L m := by
      rintro a b hab m ⟨j, x, hm, hj, hax, hxb⟩
      refine hrest m (by rw [hm]; exact Option.some_ne_none _) ?_
      rintro ⟨j', x', hm', -, h₁, h₂⟩
      rw [hm] at hm'
      simp only [Option.some.injEq, Prod.mk.injEq] at hm'
      omega
    have hmem : ∀ v, v ∈ vL ∨ v ∈ wL ∨ v ∈ wR ∨ v ∈ vR → s'.vmas v = s.vmas v := by
      intro v hv
      refine hvmas v ?_
      simp only [List.mem_append]
      tauto
    refine .child (ih (fun m hm hno => hrest m hm ?_) fun v hv => hmem v ?_) (hp.2.trans label)
      (by rw [hp.1]; exact parent) (by rw [hp.1]; exact children)
      (subtrees_congr front (hside lo₀ lo (.inl le_rfl)) fun v hv => hmem v (.inr (.inl hv))) lt
      (subtrees_congr behind (hside hi hi₀ (.inr le_rfl)) fun v hv => hmem v (.inr (.inr (.inl hv))))
    · rintro ⟨j, x, hm', hj, h₁, h₂⟩
      exact hno ⟨j, x, hm', by omega, by omega, by omega⟩
    · rcases List.mem_append.mp hv with hv | hv
      exacts [.inl hv, .inr (.inr (.inr hv))]

/-- **The descent** to the leaf for an address. -/
theorem MapleState.Path.descend (h : s.Path L tight height root k lo hi par c vL vR up)
    (hsub : s.Subtree L tight k lo hi par c vs) {addr : U32} (hlo : lo ≤ addr.toNat)
    (hhi : addr.toNat < hi) {n : ℕ} (hn : k < n) :
    ∃ lo' hi' par' leaf vL' w vR' up', mapleDescend mapleNodeSlots s addr n c = .ok (some leaf) ∧
      s.Path L tight height root 0 lo' hi' par' leaf vL' vR' up' ∧
      s.Subtree L tight 0 lo' hi' par' leaf w ∧ lo' ≤ addr.toNat ∧ addr.toNat < hi' ∧
      vL ++ (vs ++ vR) = vL' ++ (w ++ vR') := by
  induction k generalizing lo hi par c vL vR up vs n with
  | zero =>
    obtain ⟨n, rfl⟩ := Nat.exists_eq_succ_of_ne_zero (by omega : n ≠ 0)
    refine ⟨lo, hi, par, c, vL, vs, vR, up, ?_, h, hsub, hlo, hhi, rfl⟩
    rw [mapleDescend, if_pos hsub.2.2.entries.isLeaf]
  | succ k ih =>
    obtain ⟨n, rfl⟩ := Nat.exists_eq_succ_of_ne_zero (by omega : n ≠ 0)
    obtain ⟨hlabel, hpar, l, hchildren, hchain⟩ := hsub
    obtain ⟨l₁, e, l₂, m, v, w, u, rfl, h₁, he, h₂, rfl, hlow, hm, hlt⟩ := hchain.locate hlo hhi
    obtain ⟨d, b⟩ := e
    obtain ⟨lo', hi', par', leaf, vL', w', vR', up', hres, hpath, hleaf, hlo', hhi', hvs⟩ :=
      ih (.child h hlabel hpar hchildren h₁ he.lt h₂) he hm hlt (by omega : k < n)
    refine ⟨lo', hi', par', leaf, vL', w', vR', up', ?_, hpath, hleaf, hlo', hhi', ?_⟩
    · have hslot := hchildren.child (show (l₁ ++ (d, b) :: l₂)[l₁.length]? = some (d, b) by simp)
      have hlen : l₁.length < mapleNodeSlots := by
        have := hchildren.length_le
        rw [List.length_append, List.length_cons] at this
        omega
      rw [mapleDescend, if_neg (by rw [hchildren.isLeaf]; exact Bool.false_ne_true),
        hchildren.findChild hlow fun _ => hlt, MapleM.ok_bind, MapleNode.getSlot_ok hlen, MapleM.ok_bind,
        hslot]
      exact hres
    · rw [← hvs]
      simp

end Path

end Microkernel.Vma
