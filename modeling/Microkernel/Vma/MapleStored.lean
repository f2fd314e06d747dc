import Microkernel.Vma.MapleLeaf
import Microkernel.Vma.MapleSplit

/-! # What is stored in the tree

An area is stored when a leaf below the root has it. A stored area begins in the range of its leaf, so a
search for its start comes to it; and a place in the tree is determined by its node.

* **`InTree`, `stored_iff`** — the nodes below the root, and that the areas of the tree are those of their
  leaves.
* **`Subtree.separated`** — when every area ends in the range of its leaf, they are in order and disjoint.
* **`hi_unique`, `height_lt`** — the way to a node is determined, and no way is longer than the pool has
  nodes, so that the descent ends.
-/

namespace Microkernel.Vma

open Function (update)

/-! ### Stored areas -/

/-- The nodes below the root. -/
inductive MapleState.InTree (s : MapleState) : ℕ → Prop
  | root {r : ℕ} : s.root = some r → s.InTree r
  | child {n c i : ℕ} : s.InTree n → (s.nodes n).isLeaf = false → i < (s.nodes n).nrEntries.toNat →
      (s.nodes n).slots i = some c → s.InTree c

/-- The entry `v` of the area pool is in a leaf of the tree. -/
def MapleState.IsStored (s : MapleState) (v : ℕ) : Prop :=
  ∃ n, s.InTree n ∧ (s.nodes n).isLeaf = true ∧ ∃ i < (s.nodes n).nrEntries.toNat,
    (s.nodes n).slots i = some v

section Stored
variable {s : MapleState} {L : MapleLabels} {tight : Prop} {k height root lo hi n c up : ℕ}
  {par : Option ℕ} {vs free vL vR w : List ℕ}

/-- A leaf has its entries. -/
theorem MapleState.LeafIn.mem_iff (h : s.LeafIn tight lo hi n w) {v : ℕ} :
    (∃ i < (s.nodes n).nrEntries.toNat, (s.nodes n).slots i = some v) ↔ v ∈ w := by
  have hlen : (s.nodes n).nrEntries.toNat = w.length := by rw [h.entries.nrEntries, List.length_map]
  have hget : ∀ i (hi : i < w.length), (s.nodes n).slots i = some w[i] := fun i hi =>
    (h.entries.get (by rw [List.getElem?_map, List.getElem?_eq_getElem hi]; rfl)).2
  constructor
  · rintro ⟨i, hi, hv⟩
    rw [hlen] at hi
    rw [hget i hi] at hv
    rw [← Option.some.inj hv]
    exact List.getElem_mem hi
  · intro hv
    obtain ⟨i, hi, rfl⟩ := List.getElem_of_mem hv
    exact ⟨i, hlen ▸ hi, hget i hi⟩

/-- The areas of a tree below the root are stored. -/
theorem MapleState.Subtree.stored (h : s.Subtree L tight k lo hi par n vs) (hn : s.InTree n) {v : ℕ}
    (hv : v ∈ vs) : s.IsStored v := by
  induction k generalizing lo hi par n vs with
  | zero =>
    obtain ⟨-, -, hleaf⟩ := h
    exact ⟨n, hn, hleaf.entries.isLeaf, hleaf.mem_iff.mpr hv⟩
  | succ k ih =>
    obtain ⟨-, -, l, hchildren, hchain⟩ := h
    obtain ⟨a, ⟨c, b⟩, u, hc, hsub, hu, -⟩ := hchain.exists_piece (fun a b c w hs => hs.lt) hv
    obtain ⟨i, hi, hget⟩ := List.getElem_of_mem hc
    refine ih hsub (.child hn hchildren.isLeaf (hchildren.nrEntries ▸ hi) ?_) hu
    rw [hchildren.child (List.getElem?_eq_getElem hi), hget]

/-- Every node below the root has a place. -/
theorem MapleState.Tree.place (h : s.Tree L tight height root vs free) (hn : s.InTree n) :
    ∃ k lo hi par vL vR up w, s.Path L tight height root k lo hi par n vL vR up ∧
      s.Subtree L tight k lo hi par n w ∧ vs = vL ++ (w ++ vR) := by
  induction hn with
  | root hr =>
    obtain rfl := Option.some.inj (h.root_eq.symm.trans hr)
    exact ⟨_, _, _, _, _, _, _, vs, .root, h.subtree, by simp⟩
  | @child n c i _ hleaf hi hc ih =>
    obtain ⟨k, lo, hi₀, par, vL, vR, up, w, hpath, hsub, hvs⟩ := ih
    cases k with
    | zero =>
      rw [hsub.2.2.entries.isLeaf] at hleaf
      exact absurd hleaf (by decide)
    | succ k =>
      obtain ⟨hlabel, hpar, l, hchildren, hchain⟩ := hsub
      rw [hchildren.nrEntries] at hi
      obtain ⟨⟨c', b⟩, he⟩ : ∃ e, l[i]? = some e := ⟨_, List.getElem?_eq_getElem hi⟩
      obtain rfl : c' = c := Option.some.inj ((hchildren.child he).symm.trans hc)
      obtain ⟨l₁, l₂, rfl⟩ := List.append_of_mem (List.mem_of_getElem? he)
      obtain ⟨m, u, u', u'', h₁, hm, h₂, rfl⟩ := RangeChain.middle_iff.mp hchain
      exact ⟨k, m, b, some n, _, _, _, u', .child hpath hlabel hpar hchildren h₁ hm.lt h₂, hm, by simp [hvs]⟩

/-- **The areas of the tree are those that are stored.** -/
theorem MapleState.Tree.stored_iff (h : s.Tree L tight height root vs free) {v : ℕ} :
    s.IsStored v ↔ v ∈ vs := by
  constructor
  · rintro ⟨n, hn, hleaf, hv⟩
    obtain ⟨k, lo, hi, par, vL, vR, up, w, hpath, hsub, rfl⟩ := h.place hn
    cases k with
    | zero =>
      have hmem := hsub.2.2.mem_iff.mp hv
      simp [hmem]
    | succ k =>
      obtain ⟨-, -, l, hchildren, -⟩ := hsub
      rw [hchildren.isLeaf] at hleaf
      exact absurd hleaf (by decide)
  · exact fun hv => h.subtree.stored (.root h.root_eq) hv

/-! ### The ranges of the places -/

/-- The areas of a tree begin in its range, and with `tight` they end in it. -/
theorem MapleState.Subtree.inside (h : s.Subtree L tight k lo hi par n vs) {v : ℕ} (hv : v ∈ vs) :
    lo ≤ (s.vmas v).lo ∧ (s.vmas v).lo < hi ∧ (tight → (s.vmas v).hi ≤ hi) := by
  induction k generalizing lo hi par n vs with
  | zero => exact h.2.2.inside v hv
  | succ k ih =>
    obtain ⟨-, -, l, -, hchain⟩ := h
    obtain ⟨a, e, u, -, hsub, hu, hlo, hhi⟩ := hchain.exists_piece (fun a b c w hs => hs.lt) hv
    obtain ⟨h₁, h₂, h₃⟩ := ih hsub hu
    exact ⟨hlo.trans h₁, h₂.trans_le hhi, fun ht => (h₃ ht).trans hhi⟩

/-- The areas in front of a place begin in front of its range, and with `tight` they end there. -/
theorem MapleState.Path.front (h : s.Path L tight height root k lo hi par c vL vR up) {v : ℕ}
    (hv : v ∈ vL) : (s.vmas v).lo < lo ∧ (tight → (s.vmas v).hi ≤ lo) := by
  induction h with
  | root => exact absurd hv List.not_mem_nil
  | child above label parent children front lt behind ih =>
    have hle := front.le fun a b d w hs => hs.lt
    rcases List.mem_append.mp hv with hv | hv
    · obtain ⟨h₁, h₂⟩ := ih hv
      exact ⟨h₁.trans_le hle, fun ht => (h₂ ht).trans hle⟩
    · obtain ⟨a, e, u, -, hsub, hu, -, hhi⟩ := front.exists_piece (fun a b d w hs => hs.lt) hv
      obtain ⟨-, h₁, h₂⟩ := hsub.inside hu
      exact ⟨h₁.trans_le hhi, fun ht => (h₂ ht).trans hhi⟩

/-- The areas behind a place begin behind its range. -/
theorem MapleState.Path.behind (h : s.Path L tight height root k lo hi par c vL vR up) {v : ℕ}
    (hv : v ∈ vR) : hi ≤ (s.vmas v).lo := by
  induction h with
  | root => exact absurd hv List.not_mem_nil
  | child above label parent children front lt behind ih =>
    rcases List.mem_append.mp hv with hv | hv
    · obtain ⟨a, e, u, -, hsub, hu, hlo, -⟩ := behind.exists_piece (fun a b d w hs => hs.lt) hv
      exact hlo.trans (hsub.inside hu).1
    · exact (behind.le fun a b d w hs => hs.lt).trans (ih hv)

/-- **With `tight` the areas of a tree are in address order and disjoint.** -/
theorem MapleState.Subtree.separated (h : s.Subtree L tight k lo hi par n vs) (ht : tight) :
    Separated (vs.map s.vmas) := by
  induction k generalizing lo hi par n vs with
  | zero => exact h.2.2.separated
  | succ k ih =>
    obtain ⟨-, -, l, -, hchain⟩ := h
    induction l generalizing lo vs with
    | nil =>
      rw [hchain.2]
      exact IntervalList.separated_nil
    | cons e l ihl =>
      obtain ⟨u, u', he, hrest, rfl⟩ := hchain
      rw [List.map_append]
      refine IntervalList.separated_append.mpr ⟨ih he, ihl hrest, fun a ha b hb => ?_⟩
      obtain ⟨x, hx, rfl⟩ := List.mem_map.mp ha
      obtain ⟨y, hy, rfl⟩ := List.mem_map.mp hb
      obtain ⟨c, d, v, -, hsub, hv, hlo, -⟩ := hrest.exists_piece (fun a b c w hs => hs.lt) hy
      exact ((he.inside hx).2.2 ht).trans (hlo.trans (hsub.inside hv).1)

/-! ### The place of a node -/

/-- A node has one list of children. -/
theorem MapleNode.HasChildren.unique {node : MapleNode} {l l' : List (ℕ × ℕ)} (h : node.HasChildren l)
    (h' : node.HasChildren l') : l.length = l'.length ∧ ∀ {i e e'}, l[i]? = some e → l'[i]? = some e' →
      e.1 = e'.1 ∧ (i + 1 < l.length → e.2 = e'.2) := by
  have hlen : l.length = l'.length := h.nrEntries.symm.trans h'.nrEntries
  refine ⟨hlen, fun {i e e'} he he' => ⟨?_, fun hi => ?_⟩⟩
  · exact Option.some.inj ((h.child he).symm.trans (h'.child he'))
  · exact (h.key he hi).symm.trans (h'.key he' (hlen ▸ hi))

/-- **A place is determined by its node**: two ways to a node whose range begins at `lo` come to the same
range. -/
theorem MapleState.Path.hi_unique (h : s.Path L tight height root k lo hi par c vL vR up) {hi' up' : ℕ}
    {vL' vR' : List ℕ} (h' : s.Path L tight height root k lo hi' par c vL' vR' up')
    (hc : L c = some (k, lo)) : hi = hi' := by
  induction h generalizing hi' vL' vR' up' with
  | root =>
    cases h'
    rfl
  | @child k lo₀ hi₀ p c lo hi up par l₁ l₂ vL vR wL wR above label parent children front lt behind ih =>
    cases h' with
    | @child _ lo₀' hi₀' _ _ _ _ up' par' l₁' l₂' vL' vR' wL' wR' above' label' parent' children' front'
        lt' behind' =>
      obtain rfl : lo₀ = lo₀' := by simpa using label.symm.trans label'
      obtain rfl : par = par' := parent.symm.trans parent'
      obtain rfl := ih above' label
      obtain ⟨hlen, hsame⟩ := children.unique children'
      have hget : (l₁ ++ (c, hi) :: l₂)[l₁.length]? = some (c, hi) := by simp
      have hlt : l₁.length < (l₁' ++ (c, hi') :: l₂').length := by
        rw [← hlen, List.length_append, List.length_cons]
        omega
      obtain ⟨⟨c', b⟩, he⟩ : ∃ e, (l₁' ++ (c, hi') :: l₂')[l₁.length]? = some e :=
        ⟨_, List.getElem?_eq_getElem hlt⟩
      obtain ⟨rfl, hkey⟩ := hsame hget he
      -- the node is at one place among the children
      have hpos : l₁.length = l₁'.length := by
        rcases Nat.lt_trichotomy l₁.length l₁'.length with hlt | heq | hgt
        · rw [List.getElem?_append_left hlt] at he
          obtain ⟨a, ha, -, hlo⟩ := subtrees_label front' (List.mem_of_getElem? he)
          rw [hc] at ha
          obtain rfl : lo = a := by simpa using ha
          exact absurd hlo (lt_irrefl _)
        · exact heq
        · obtain ⟨j, hj⟩ := Nat.exists_eq_add_of_lt hgt
          rw [List.getElem?_append_right (by omega), show l₁.length - l₁'.length = j + 1 by omega] at he
          obtain ⟨a, ha, hlo, -⟩ := subtrees_label behind' (List.mem_of_getElem? he)
          rw [hc] at ha
          obtain rfl : lo = a := by simpa using ha
          omega
      rw [hpos] at he hkey
      obtain rfl : b = hi' := by simpa using he.symm
      by_cases hlast : l₁'.length + 1 < (l₁ ++ (c, hi) :: l₂).length
      · exact hkey hlast
      · -- the last child has the end of the parent's range
        rw [List.length_append, List.length_cons] at hlast hlen
        rw [List.length_append, List.length_cons] at hlen
        obtain rfl : l₂ = [] := List.eq_nil_of_length_eq_zero (by omega)
        obtain rfl : l₂' = [] := List.eq_nil_of_length_eq_zero (by
          rw [List.length_nil] at hlen
          omega)
        exact behind.1.trans behind'.1.symm

/-! ### The height of the tree -/

/-- A tree has nodes at every level. -/
theorem MapleState.Subtree.exists_level (h : s.Subtree L tight k lo hi par n vs) {j : ℕ} (hj : j ≤ k) :
    ∃ m x, L m = some (j, x) := by
  induction k generalizing lo hi par n vs with
  | zero => exact ⟨n, lo, by rw [Nat.le_zero.mp hj]; exact h.label⟩
  | succ k ih =>
    rcases Nat.lt_or_eq_of_le hj with hlt | rfl
    · obtain ⟨-, -, l, hchildren, hchain⟩ := h
      cases l with
      | nil => exact absurd hchildren.length_pos (lt_irrefl 0)
      | cons e l =>
        obtain ⟨v, w, he, -⟩ := hchain
        exact ih he (Nat.lt_succ_iff.mp hlt)
    · exact ⟨n, lo, h.label⟩

/-- **The tree is lower than the pool is large.** -/
theorem MapleState.Tree.height_lt (h : s.Tree L tight height root vs free) : height < mapleMaxNodes := by
  choose f x hf using fun j : Fin (height + 1) => h.subtree.exists_level (Nat.lt_succ_iff.mp j.isLt)
  have hinj : Function.Injective fun j : Fin (height + 1) =>
      (⟨f j, h.free.below _ (.inr (by rw [hf j]; exact Option.some_ne_none _))⟩ : Fin mapleMaxNodes) := by
    intro i j hij
    have hfij : f i = f j := congrArg Fin.val hij
    have hi := hf i
    rw [hfij, hf j] at hi
    simp only [Option.some.injEq, Prod.mk.injEq] at hi
    exact Fin.ext hi.1.symm
  have hcard := Fintype.card_le_of_injective _ hinj
  rw [Fintype.card_fin, Fintype.card_fin] at hcard
  exact hcard

end Stored

end Microkernel.Vma
