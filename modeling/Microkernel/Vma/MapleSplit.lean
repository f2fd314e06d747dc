import Microkernel.Vma.MapleTree

/-! # Splits in the tree

What `maple_add` does above a leaf that it has split: the new node goes behind the split key into the
parent, which may have to be split first. Every level takes one node of the pool, and when the pool runs
out on the way the tree stays a tree, but without the areas of the node that found no parent.

* **`FreeNodes`** — the pool: free nodes are on the free list and in no tree.
* **`Around`, `SplitsInto`** — a node with one of its children open, and what the split of a full node
  makes of it.
* **`mapleInsertUp_spec`** — the way up, by induction on the levels; `mapleInsertUp_place`,
  `mapleInsertUp_split` and `mapleInsertUp_root` are its cases.
-/

namespace Microkernel.Vma

open Function (update)

/-! ### The free nodes -/

/-- The free nodes `l`, chained through their parents from `h` on. -/
def NodeChain (nodes : ℕ → MapleNode) : Option ℕ → List ℕ → Prop
  | h, [] => h = none
  | h, n :: l => h = some n ∧ NodeChain nodes (nodes n).parent l

/-- Only the free nodes matter. -/
theorem NodeChain.congr {nodes nodes' : ℕ → MapleNode} {h : Option ℕ} {l : List ℕ}
    (hl : NodeChain nodes h l) (hn : ∀ n ∈ l, nodes' n = nodes n) : NodeChain nodes' h l := by
  induction l generalizing h with
  | nil => exact hl
  | cons n l ih =>
    obtain ⟨rfl, hl⟩ := hl
    refine ⟨rfl, ?_⟩
    rw [hn n List.mem_cons_self]
    exact ih hl fun m hm => hn m (List.mem_cons_of_mem n hm)

/-- **The free nodes** are those of the free list, and have no label; all nodes are of the pool. -/
structure MapleState.FreeNodes (s : MapleState) (L : MapleLabels) (free : List ℕ) : Prop where
  chain : NodeChain s.nodes s.nodeFree free
  nodup : free.Nodup
  fresh : ∀ n ∈ free, L n = none
  below : ∀ n, n ∈ free ∨ L n ≠ none → n < mapleMaxNodes

/-- The node that `node_alloc` returns. -/
def MapleNode.empty : MapleNode := ⟨fun _ => 0#32, 0#8, false, none, fun _ => none⟩

section FreeNodes
variable {s s' : MapleState} {L : MapleLabels} {free : List ℕ} {q : ℕ}

/-- `node_alloc` gives nothing from an empty pool. -/
theorem MapleState.FreeNodes.alloc_none (h : s.FreeNodes L []) : nodeAlloc s = (s, none) := by
  have hfree : s.nodeFree = none := h.chain
  unfold nodeAlloc
  rw [hfree]

/-- `node_alloc` gives the first free node, cleared. -/
theorem MapleState.FreeNodes.alloc_some (h : s.FreeNodes L (q :: free)) :
    nodeAlloc s = ({ s with
      nodes := update s.nodes q .empty
      nodeFree := (s.nodes q).parent }, some q) := by
  have hfree : s.nodeFree = some q := h.chain.1
  unfold nodeAlloc
  rw [hfree]
  rfl

/-- Changes of nodes that are not free. -/
theorem MapleState.FreeNodes.congr (h : s.FreeNodes L free) (hfree : s'.nodeFree = s.nodeFree)
    (hnodes : ∀ n ∈ free, s'.nodes n = s.nodes n) : s'.FreeNodes L free where
  chain := by
    rw [hfree]
    exact h.chain.congr hnodes
  nodup := h.nodup
  fresh := h.fresh
  below := h.below

/-- The first free node is taken, and gets a label. -/
theorem MapleState.FreeNodes.take (h : s.FreeNodes L (q :: free))
    (hfree : s'.nodeFree = (s.nodes q).parent) (hnodes : ∀ n ∈ free, s'.nodes n = s.nodes n)
    (x : ℕ × ℕ) : s'.FreeNodes (update L q (some x)) free := by
  have hq := (List.nodup_cons.mp h.nodup).1
  refine ⟨?_, (List.nodup_cons.mp h.nodup).2, fun n hn => ?_, fun n hn => ?_⟩
  · rw [hfree]
    exact h.chain.2.congr hnodes
  · have hne : n ≠ q := by
      rintro rfl
      exact hq hn
    rw [Function.update_of_ne hne]
    exact h.fresh n (List.mem_cons_of_mem q hn)
  · by_cases hne : n = q
    · rw [hne]
      exact h.below q (.inl List.mem_cons_self)
    · rw [Function.update_of_ne hne] at hn
      exact h.below n (hn.imp_left (List.mem_cons_of_mem q))

/-- A free node has no place in the tree. -/
theorem MapleState.FreeNodes.ne_of_label (h : s.FreeNodes L free) {n m : ℕ} (hn : n ∈ free)
    {x : ℕ × ℕ} (hm : L m = some x) : m ≠ n := by
  rintro rfl
  rw [h.fresh m hn] at hm
  exact absurd hm (by simp)

end FreeNodes

/-! ### A node and its children -/

/-- **A node `p` at level `k + 1` with its children**, all of them trees but the one at `c`, which serves
the range `[lo, hi)`. -/
structure MapleState.Around (s : MapleState) (L : MapleLabels) (tight : Prop) (k lo₀ hi₀ : ℕ)
    (par : Option ℕ) (p : ℕ) (l₁ : List (ℕ × ℕ)) (c lo hi : ℕ) (l₂ : List (ℕ × ℕ)) (wL wR : List ℕ) :
    Prop where
  label : L p = some (k + 1, lo₀)
  parent : (s.nodes p).parent = par
  children : (s.nodes p).HasChildren (l₁ ++ (c, hi) :: l₂)
  front : RangeChain (fun a b d w => s.Subtree L tight k a b (some p) d w) lo₀ l₁ lo wL
  behind : RangeChain (fun a b d w => s.Subtree L tight k a b (some p) d w) hi l₂ hi₀ wR

section Around
variable {s : MapleState} {L : MapleLabels} {tight : Prop} {k lo₀ hi₀ p c d lo mid hi : ℕ}
  {par par' : Option ℕ} {l₁ l₂ : List (ℕ × ℕ)} {wL wR v₁ v₂ : List ℕ} {key : U32}

/-- A label for two places is one place. -/
theorem label_ne {n m : ℕ} {x y : ℕ × ℕ} (hn : L n = some x) (hm : L m = some y) (hne : x ≠ y) :
    n ≠ m := by
  rintro rfl
  exact hne (Option.some.inj (hn.symm.trans hm))

/-- A node without a label is not in the tree. -/
theorem ne_of_label {n q : ℕ} {x : ℕ × ℕ} (hq : L q = none) (hn : L n = some x) : n ≠ q := by
  rintro rfl
  rw [hq] at hn
  exact absurd hn (by simp)

/-- **The two halves of a child** are put in its place, when the node has room. -/
theorem MapleState.Around.insert (h : s.Around L tight k lo₀ hi₀ par p l₁ c lo hi l₂ wL wR)
    (hlen : (l₁ ++ (c, hi) :: l₂).length < mapleNodeSlots)
    (hc : s.Subtree L tight k lo mid (some p) c v₁) (hd : s.Subtree L tight k mid hi par' d v₂)
    (hkey : key.toNat = mid) :
    ∃ nodes', internalFindChild mapleNodeSlots (s.nodes p) key = .ok l₁.length ∧
      internalInsertAt mapleNodeSlots p l₁.length key d s = .ok { s with nodes := nodes' } ∧
      MapleState.Subtree { s with nodes := nodes' } L tight (k + 1) lo₀ hi₀ par p
        (wL ++ ((v₁ ++ v₂) ++ wR)) ∧
      ∀ m, m ≠ p → m ≠ d → nodes' m = s.nodes m := by
  have hlt : ∀ a b d w, s.Subtree L tight k a b (some p) d w → a < b := fun a b d w hs => hs.lt
  have hdp : d ≠ p := label_ne hd.label h.label (by simp)
  have hfind : internalFindChild mapleNodeSlots (s.nodes p) key = .ok l₁.length := by
    refine h.children.findChild (fun e he => ?_) fun _ => ?_
    · have hle := (h.front.bounds hlt he).2
      have hlo := hc.lt
      omega
    · rw [hkey]
      exact hd.lt
  obtain ⟨nodes', hres, hchildren, hpar, hdn, hrest⟩ :=
    @internalInsertAt_spec s p d c hi l₁ l₂ key h.children hlen hdp
  refine ⟨nodes', hfind, hres, ?_, hrest⟩
  obtain ⟨s', hs'⟩ : ∃ s' : MapleState, s' = { s with nodes := nodes' } := ⟨_, rfl⟩
  rw [← hs']
  have hnodes : s'.nodes = nodes' := by rw [hs']
  have hvmas : ∀ v, s'.vmas v = s.vmas v := fun v => by rw [hs']
  -- a node below level `k + 1` that is not `d` stays
  have hsame : ∀ m j x, L m = some (j, x) → j < k + 1 → (j, x) ≠ (k, mid) →
      s'.nodes m = s.nodes m ∧ L m = L m := by
    intro m j x hm hj hne
    rw [hnodes]
    exact ⟨hrest m (label_ne hm h.label (by simp only [ne_eq, Prod.mk.injEq]; omega))
      (label_ne hm hd.label hne), rfl⟩
  have hclt := hc.lt
  have hdlt := hd.lt
  refine ⟨h.label, by rw [hnodes, hpar, h.parent], _, by rw [hnodes]; exact hchildren, ?_⟩
  rw [RangeChain.middle_iff]
  refine ⟨lo, wL, v₁, v₂ ++ wR, subtrees_congr h.front (fun m hm => ?_) fun v _ => hvmas v,
    ?_, ⟨v₂, wR, ?_, subtrees_congr h.behind (fun m hm => ?_) fun v _ => hvmas v, rfl⟩, by simp⟩
  · obtain ⟨j, x, hm, hj, hx⟩ := hm
    exact hsame m j x hm hj (by simp only [ne_eq, Prod.mk.injEq]; omega)
  · rw [hkey]
    refine hc.congr (fun m hm => ?_) fun v _ => hvmas v
    obtain ⟨j, x, hm, hj, hx⟩ := hm
    exact hsame m j x hm hj (by simp only [ne_eq, Prod.mk.injEq]; omega)
  · rw [hkey]
    refine hd.frame ?_ rfl (fun m hm => ?_) fun v _ => hvmas v
    · rw [hnodes, hdn]
    · obtain ⟨j, x, hm, hj, hx⟩ := hm
      exact hsame m j x hm (by omega) (by simp only [ne_eq, Prod.mk.injEq]; omega)
  · obtain ⟨j, x, hm, hj, hx⟩ := hm
    exact hsame m j x hm hj (by simp only [ne_eq, Prod.mk.injEq]; omega)

/-- A tree beside the node, at its level, does not notice. -/
theorem MapleState.Around.insert_beside (h : s.Around L tight k lo₀ hi₀ par p l₁ c lo hi l₂ wL wR)
    (hlen : (l₁ ++ (c, hi) :: l₂).length < mapleNodeSlots)
    (hc : s.Subtree L tight k lo mid (some p) c v₁) (hd : s.Subtree L tight k mid hi par' d v₂)
    (hkey : key.toNat = mid) {a b t : ℕ} {part : Option ℕ} {u : List ℕ}
    (ht : s.Subtree L tight (k + 1) a b part t u) (hbeside : b ≤ lo₀ ∨ hi₀ ≤ a) :
    ∃ nodes', internalFindChild mapleNodeSlots (s.nodes p) key = .ok l₁.length ∧
      internalInsertAt mapleNodeSlots p l₁.length key d s = .ok { s with nodes := nodes' } ∧
      MapleState.Subtree { s with nodes := nodes' } L tight (k + 1) lo₀ hi₀ par p
        (wL ++ ((v₁ ++ v₂) ++ wR)) ∧
      MapleState.Subtree { s with nodes := nodes' } L tight (k + 1) a b part t u ∧
      ∀ m, m ≠ p → m ≠ d → nodes' m = s.nodes m := by
  have hlt : ∀ a b d w, s.Subtree L tight k a b (some p) d w → a < b := fun a b d w hs => hs.lt
  have hclt := hc.lt
  have hdlt := hd.lt
  have hlo := h.front.le hlt
  have hhi := h.behind.le hlt
  obtain ⟨nodes', hfind, hins, hsub, hrest⟩ := h.insert hlen hc hd hkey
  refine ⟨nodes', hfind, hins, hsub, ht.congr ?_ fun v _ => rfl, hrest⟩
  rintro n ⟨j, x, hn, hj, hx⟩
  exact ⟨hrest n (label_ne hn h.label (by simp only [ne_eq, Prod.mk.injEq]; omega))
    (label_ne hn hd.label (by simp only [ne_eq, Prod.mk.injEq]; omega)), rfl⟩

/-- What the split of a full node does to the tree below it: the children behind the key that goes up get
the new node for a parent, and all other nodes stay. -/
theorem splitInternal_tree {l : List (ℕ × ℕ)} {q m : ℕ} {w w' : List ℕ} (hlabel : L p = some (k + 1, lo₀))
    (hchildren : (s.nodes p).HasChildren l) (hfull : l.length = mapleNodeSlots) (hq : L q = none)
    (hkept : RangeChain (fun a b d w => s.Subtree L tight k a b (some p) d w) lo₀ (l.take splitMid) m w)
    (hmoved : RangeChain (fun a b d w => s.Subtree L tight k a b (some p) d w) m (l.drop splitMid) hi₀
      w') :
    ∃ nodes₂ upKey, splitInternal mapleNodeSlots p q s = .ok ({ s with nodes := nodes₂ }, upKey) ∧
      upKey.toNat = m ∧ (nodes₂ p).HasChildren (l.take splitMid) ∧
      (nodes₂ q).HasChildren (l.drop splitMid) ∧ (nodes₂ p).parent = (s.nodes p).parent ∧
      (nodes₂ q).parent = (s.nodes q).parent ∧
      (∀ e ∈ l.drop splitMid, nodes₂ e.1 = { s.nodes e.1 with parent := some q }) ∧
      ∀ n, n ≠ p → n ≠ q → (∀ e ∈ l.drop splitMid, e.1 ≠ n) → nodes₂ n = s.nodes n := by
  have hne : ∀ e ∈ l, e.1 ≠ p ∧ e.1 ≠ q := by
    rintro ⟨c, b⟩ he
    rw [← List.take_append_drop splitMid l, List.mem_append] at he
    obtain ⟨x, hx⟩ : ∃ x, L c = some (k, x) := by
      rcases he with he | he
      · obtain ⟨x, hx, -⟩ := MapleState.subtrees_label hkept he
        exact ⟨x, hx⟩
      · obtain ⟨x, hx, -⟩ := MapleState.subtrees_label hmoved he
        exact ⟨x, hx⟩
    refine ⟨label_ne hx hlabel (by simp), ?_⟩
    rintro rfl
    rw [hq] at hx
    exact absurd hx (by simp)
  have hpq : p ≠ q := by
    rintro rfl
    rw [hq] at hlabel
    exact absurd hlabel (by simp)
  obtain ⟨nodes₂, upKey, e, hres, he, hkey, hleft, hright, hparp, hparq, hrest⟩ :=
    splitInternal_spec hchildren hfull hpq hne
  refine ⟨nodes₂, upKey, hres, ?_, hleft, hright, hparp, hparq, fun e he => ?_, fun n hnp hnq hno => ?_⟩
  · -- the key that goes up ends the range of the last child that is kept
    have hlen : (l.take splitMid).length = splitMid := by
      rw [List.length_take, hfull]
      rfl
    have hget : (l.take splitMid)[splitMid - 1]? = some e := by
      rw [List.getElem?_take, if_pos (by decide)]
      exact he
    rw [hkey]
    exact hkept.last_bound hget hlen.symm
  · obtain ⟨hp, hq⟩ := hne e (List.mem_of_mem_drop he)
    exact (hrest e.1 hp hq).1 (List.mem_map_of_mem he)
  · refine (hrest n hnp hnq).2 fun hmem => ?_
    obtain ⟨e, he, rfl⟩ := List.mem_map.mp hmem
    exact hno e he rfl

/-- **What the split of a full node `p` gives**: `p` keeps the range in front of the key that goes up, the
new node `q` gets the range behind it, and the node `d` is put behind its key into the half it belongs to.
Together the halves have the areas `vs`. -/
def MapleState.SplitsInto (s : MapleState) (L : MapleLabels) (tight : Prop) (k lo₀ hi₀ : ℕ)
    (par : Option ℕ) (p q d : ℕ) (key : U32) (vs : List ℕ) : Prop :=
  ∃ nodes₂ upKey pos nodes' x₁ x₂,
    splitInternal mapleNodeSlots p q s = .ok ({ s with nodes := nodes₂ }, upKey) ∧
    internalFindChild mapleNodeSlots (nodes₂ (if key < upKey then p else q)) key = .ok pos ∧
    internalInsertAt mapleNodeSlots (if key < upKey then p else q) pos key d
      { s with nodes := nodes₂ } = .ok { s with nodes := nodes' } ∧
    MapleState.Subtree { s with nodes := nodes' } (update L q (some (k + 1, upKey.toNat))) tight
      (k + 1) lo₀ upKey.toNat par p x₁ ∧
    MapleState.Subtree { s with nodes := nodes' } (update L q (some (k + 1, upKey.toNat))) tight
      (k + 1) upKey.toNat hi₀ none q x₂ ∧
    x₁ ++ x₂ = vs ∧ ∀ n, n ≠ q → ¬ L.Below (k + 2) lo₀ hi₀ n → nodes' n = s.nodes n

/-- The nodes outside stay when the split and the insertion change nodes below `p` only. -/
theorem MapleState.Around.outside (h : s.Around L tight k lo₀ hi₀ par p l₁ c lo hi l₂ wL wR)
    (hd : s.Subtree L tight k mid hi par' d v₂) (hlo : lo₀ ≤ mid) (hhi : hi ≤ hi₀) {q r : ℕ}
    (hr : r = p ∨ r = q) {nodes₂ nodes' : ℕ → MapleNode}
    (h₂ : ∀ n, n ≠ p → n ≠ q → (∀ x, L n = some (k, x) → x < lo₀ ∨ hi₀ ≤ x) → nodes₂ n = s.nodes n)
    (h' : ∀ n, n ≠ r → n ≠ d → nodes' n = nodes₂ n) {n : ℕ} (hnq : n ≠ q)
    (hno : ¬ L.Below (k + 2) lo₀ hi₀ n) : nodes' n = s.nodes n := by
  have hdlt := hd.lt
  have hnp : n ≠ p := by
    rintro rfl
    exact hno ⟨k + 1, lo₀, h.label, by omega, le_rfl, by omega⟩
  have hnd : n ≠ d := by
    rintro rfl
    exact hno ⟨k, mid, hd.label, by omega, by omega, by omega⟩
  rw [h' n (by rcases hr with rfl | rfl <;> assumption) hnd]
  refine h₂ n hnp hnq fun x hx => ?_
  by_contra hin
  exact hno ⟨k, x, hx, by omega, by omega, by omega⟩

/-- The child stays with the node. -/
theorem MapleState.Around.splitStay (h : s.Around L tight k lo₀ hi₀ par p l₁ c lo hi l₂ wL wR)
    (hfull : (l₁ ++ (c, hi) :: l₂).length = mapleNodeSlots)
    (hc : s.Subtree L tight k lo mid (some p) c v₁) (hd : s.Subtree L tight k mid hi par' d v₂)
    (hkey : key.toNat = mid) {q : ℕ} (hq : L q = none) (hqpar : (s.nodes q).parent = none)
    (hside : l₁.length < splitMid) :
    s.SplitsInto L tight k lo₀ hi₀ par p q d key (wL ++ ((v₁ ++ v₂) ++ wR)) := by
  have hlt : ∀ a b d w, s.Subtree L tight k a b (some p) d w → a < b := fun a b d w hs => hs.lt
  have hclt := hc.lt
  have hdlt := hd.lt
  have hext := hc.extend hdlt.le
  have hlo := h.front.le hlt
  have hhi := h.behind.le hlt
  obtain ⟨a, b, rfl, ha⟩ : ∃ a b, l₂ = a ++ b ∧ (l₁ ++ (c, hi) :: a).length = splitMid := by
    refine ⟨l₂.take (splitMid - 1 - l₁.length), l₂.drop (splitMid - 1 - l₁.length),
      (List.take_append_drop ..).symm, ?_⟩
    have hmid : splitMid = 5 := rfl
    have hslots := mapleNodeSlots_eq
    rw [List.length_append, List.length_cons] at hfull
    rw [List.length_append, List.length_cons, List.length_take]
    omega
  obtain ⟨m, u₁, u₂, hbehind, hmoved, rfl⟩ := RangeChain.append_iff.mp h.behind
  have hcons : l₁ ++ (c, hi) :: (a ++ b) = (l₁ ++ (c, hi) :: a) ++ b := by simp
  have htake : (l₁ ++ (c, hi) :: (a ++ b)).take splitMid = l₁ ++ (c, hi) :: a := by
    rw [hcons]
    exact List.take_left' ha
  have hdrop : (l₁ ++ (c, hi) :: (a ++ b)).drop splitMid = b := by
    rw [hcons]
    exact List.drop_left' ha
  obtain ⟨nodes₂, upKey, hres, rfl, hleft, hright, hparp, hparq, hnew, hsame⟩ :=
    splitInternal_tree h.label h.children hfull hq
      (by rw [htake]; exact RangeChain.middle_iff.mpr ⟨lo, wL, v₁, u₁, h.front, hext, hbehind, rfl⟩)
      (by rw [hdrop]; exact hmoved)
  rw [htake] at hleft
  rw [hdrop] at hright hnew hsame
  have hhim := hbehind.le hlt
  have hmhi := hmoved.le hlt
  obtain ⟨L', hL'⟩ : ∃ L', L' = update L q (some (k + 1, upKey.toNat)) := ⟨_, rfl⟩
  obtain ⟨s₂, hs₂⟩ : ∃ s₂ : MapleState, s₂ = { s with nodes := nodes₂ } := ⟨_, rfl⟩
  have hold : ∀ {n x}, L n = some x → L' n = L n := fun hn => by
    rw [hL', Function.update_of_ne (ne_of_label hq hn)]
  -- the moved children lie behind the key
  have hstay : ∀ n j x, L n = some (j, x) → j ≤ k → (j = k → x < upKey.toNat) →
      s₂.nodes n = s.nodes n ∧ L' n = L n := by
    intro n j x hn hj hx
    rw [hs₂]
    refine ⟨hsame n (label_ne hn h.label (by simp only [ne_eq, Prod.mk.injEq]; omega)) (ne_of_label hq hn)
      fun e he => ?_, hold hn⟩
    obtain ⟨y, hy, hge, -⟩ := MapleState.subtrees_label (c := e.1) (b := e.2) hmoved he
    exact label_ne hy hn (by simp only [ne_eq, Prod.mk.injEq]; omega)
  have haround : s₂.Around L' tight k lo₀ upKey.toNat par p l₁ c lo hi a wL u₁ := by
    refine ⟨(hold h.label).trans h.label, by rw [hs₂]; exact hparp.trans h.parent,
      by rw [hs₂]; exact hleft, subtrees_congr h.front ?_ fun v _ => by rw [hs₂],
      subtrees_congr hbehind ?_ fun v _ => by rw [hs₂]⟩
    · rintro n ⟨j, x, hn, hj, hx⟩
      exact hstay n j x hn (by omega) fun _ => by omega
    · rintro n ⟨j, x, hn, hj, hx⟩
      exact hstay n j x hn (by omega) fun _ => by omega
  have hc₂ : s₂.Subtree L' tight k lo mid (some p) c v₁ := by
    refine hc.congr ?_ fun v _ => by rw [hs₂]
    rintro n ⟨j, x, hn, hj, hx⟩
    exact hstay n j x hn (by omega) fun _ => by omega
  have hd₂ : s₂.Subtree L' tight k mid hi par' d v₂ := by
    refine hd.congr ?_ fun v _ => by rw [hs₂]
    rintro n ⟨j, x, hn, hj, hx⟩
    exact hstay n j x hn (by omega) fun _ => by omega
  have hq₂ : s₂.Subtree L' tight (k + 1) upKey.toNat hi₀ none q u₂ := by
    refine ⟨by rw [hL', Function.update_self], by rw [hs₂]; exact hparq.trans hqpar, b,
      by rw [hs₂]; exact hright, subtrees_frame hmoved (fun c' b' hmem => ?_) ?_
        fun v _ => by rw [hs₂]⟩
    · obtain ⟨y, hy, -⟩ := MapleState.subtrees_label hmoved hmem
      rw [hs₂]
      exact ⟨hnew _ hmem, hold hy⟩
    · rintro n ⟨j, x, hn, hj, hx⟩
      exact hstay n j x hn (by omega) fun hjk => by omega
  obtain ⟨nodes', hfind, hins, hsub, hq', hrest⟩ :=
    haround.insert_beside (by rw [ha]; decide) hc₂ hd₂ hkey hq₂ (.inr le_rfl)
  have hcmp : key < upKey := by
    rw [BitVec.lt_def]
    omega
  have hstate : ({ s₂ with nodes := nodes' } : MapleState) = { s with nodes := nodes' } := by rw [hs₂]
  rw [hstate] at hins hsub hq'
  rw [hL'] at hsub hq'
  refine ⟨nodes₂, upKey, l₁.length, nodes', _, u₂, hres, ?_, ?_, hsub, hq', by simp, ?_⟩
  · rw [if_pos hcmp]
    rw [hs₂] at hfind
    exact hfind
  · rw [if_pos hcmp]
    rw [hs₂] at hins
    exact hins
  · refine fun n => h.outside hd (by omega) hhi (.inl rfl) (fun n hnp hnq hx => hsame n hnp hnq
      fun e he => ?_) fun n hnp hnd => by rw [hrest n hnp hnd, hs₂]
    rintro rfl
    obtain ⟨y, hy, hge, hle⟩ := MapleState.subtrees_label (c := e.1) (b := e.2) hmoved he
    have := hx y hy
    omega

/-- The child moves to the new node. -/
theorem MapleState.Around.splitMove (h : s.Around L tight k lo₀ hi₀ par p l₁ c lo hi l₂ wL wR)
    (hfull : (l₁ ++ (c, hi) :: l₂).length = mapleNodeSlots)
    (hc : s.Subtree L tight k lo mid (some p) c v₁) (hd : s.Subtree L tight k mid hi par' d v₂)
    (hkey : key.toNat = mid) {q : ℕ} (hq : L q = none) (hqpar : (s.nodes q).parent = none)
    (hside : splitMid ≤ l₁.length) :
    s.SplitsInto L tight k lo₀ hi₀ par p q d key (wL ++ ((v₁ ++ v₂) ++ wR)) := by
  have hlt : ∀ a b d w, s.Subtree L tight k a b (some p) d w → a < b := fun a b d w hs => hs.lt
  have hclt := hc.lt
  have hdlt := hd.lt
  have hext := hc.extend hdlt.le
  have hlo := h.front.le hlt
  have hhi := h.behind.le hlt
  obtain ⟨a, b, rfl, ha⟩ : ∃ a b, l₁ = a ++ b ∧ a.length = splitMid :=
    ⟨l₁.take splitMid, l₁.drop splitMid, (List.take_append_drop ..).symm, by
      rw [List.length_take]
      omega⟩
  obtain ⟨m, u₁, u₂, hkept, hfront, rfl⟩ := RangeChain.append_iff.mp h.front
  have hcons : (a ++ b) ++ (c, hi) :: l₂ = a ++ (b ++ (c, hi) :: l₂) := List.append_assoc ..
  have htake : ((a ++ b) ++ (c, hi) :: l₂).take splitMid = a := by
    rw [hcons]
    exact List.take_left' ha
  have hdrop : ((a ++ b) ++ (c, hi) :: l₂).drop splitMid = b ++ (c, hi) :: l₂ := by
    rw [hcons]
    exact List.drop_left' ha
  have hmoved : RangeChain (fun a b d w => s.Subtree L tight k a b (some p) d w) m
      (b ++ (c, hi) :: l₂) hi₀ (u₂ ++ (v₁ ++ wR)) :=
    RangeChain.middle_iff.mpr ⟨lo, u₂, v₁, wR, hfront, hext, h.behind, rfl⟩
  obtain ⟨nodes₂, upKey, hres, rfl, hleft, hright, hparp, hparq, hnew, hsame⟩ :=
    splitInternal_tree h.label h.children hfull hq (by rw [htake]; exact hkept)
      (by rw [hdrop]; exact hmoved)
  rw [htake] at hleft
  rw [hdrop] at hright hnew hsame
  have hlom := hkept.le hlt
  have hmlo := hfront.le hlt
  obtain ⟨L', hL'⟩ : ∃ L', L' = update L q (some (k + 1, upKey.toNat)) := ⟨_, rfl⟩
  obtain ⟨s₂, hs₂⟩ : ∃ s₂ : MapleState, s₂ = { s with nodes := nodes₂ } := ⟨_, rfl⟩
  have hold : ∀ {n x}, L n = some x → L' n = L n := fun hn => by
    rw [hL', Function.update_of_ne (ne_of_label hq hn)]
  -- no child that moves has the label of a node in front of the key, or that of the new child
  have hstay : ∀ n j x, L n = some (j, x) → j ≤ k → (j = k → x < upKey.toNat ∨ x = mid) →
      s₂.nodes n = s.nodes n ∧ L' n = L n := by
    intro n j x hn hj hx
    rw [hs₂]
    refine ⟨hsame n (label_ne hn h.label (by simp only [ne_eq, Prod.mk.injEq]; omega)) (ne_of_label hq hn)
      fun e he => ?_, hold hn⟩
    rcases List.mem_append.mp he with he | he
    · obtain ⟨y, hy, hge, hle⟩ := MapleState.subtrees_label (c := e.1) (b := e.2) hfront he
      exact label_ne hy hn (by simp only [ne_eq, Prod.mk.injEq]; omega)
    · rcases List.mem_cons.mp he with rfl | he
      · exact label_ne hc.label hn (by simp only [ne_eq, Prod.mk.injEq]; omega)
      · obtain ⟨y, hy, hge, hle⟩ := MapleState.subtrees_label (c := e.1) (b := e.2) h.behind he
        exact label_ne hy hn (by simp only [ne_eq, Prod.mk.injEq]; omega)
  have hroots : ∀ c' b', (c', b') ∈ b ++ (c, hi) :: l₂ →
      s₂.nodes c' = { s.nodes c' with parent := some q } ∧ L' c' = L c' := by
    intro c' b' hmem
    obtain ⟨y, hy, -⟩ := MapleState.subtrees_label hmoved hmem
    rw [hs₂]
    exact ⟨hnew _ hmem, hold hy⟩
  have hlower : ∀ n, L.Below k upKey.toNat hi₀ n → s₂.nodes n = s.nodes n ∧ L' n = L n := by
    rintro n ⟨j, x, hn, hj, -⟩
    exact hstay n j x hn (by omega) fun hjk => by omega
  have haround : s₂.Around L' tight k upKey.toNat hi₀ none q b c lo hi l₂ u₂ wR := by
    refine ⟨by rw [hL', Function.update_self], by rw [hs₂]; exact hparq.trans hqpar,
      by rw [hs₂]; exact hright,
      subtrees_frame hfront (fun c' b' hmem => hroots c' b' (List.mem_append_left _ hmem))
        (fun n ⟨j, x, hn, hj, hx⟩ => hlower n ⟨j, x, hn, hj, by omega, by omega⟩)
        fun v _ => by rw [hs₂],
      subtrees_frame h.behind
        (fun c' b' hmem => hroots c' b' (List.mem_append_right _ (List.mem_cons_of_mem _ hmem)))
        (fun n ⟨j, x, hn, hj, hx⟩ => hlower n ⟨j, x, hn, hj, by omega, by omega⟩)
        fun v _ => by rw [hs₂]⟩
  have hc₂ : s₂.Subtree L' tight k lo mid (some q) c v₁ := by
    obtain ⟨hnode, hlab⟩ := hroots c hi (List.mem_append_right _ List.mem_cons_self)
    refine hc.frame hnode hlab (fun n hn => ?_) fun v _ => by rw [hs₂]
    obtain ⟨j, x, hn, hj, hx⟩ := hn
    exact hlower n ⟨j, x, hn, hj, by omega, by omega⟩
  have hd₂ : s₂.Subtree L' tight k mid hi par' d v₂ := by
    obtain ⟨hnode, hlab⟩ := hstay d k mid hd.label le_rfl fun _ => .inr rfl
    refine hd.frame (by rw [hnode, ← hd.parent]) hlab (fun n hn => ?_) fun v _ => by rw [hs₂]
    obtain ⟨j, x, hn, hj, hx⟩ := hn
    exact hlower n ⟨j, x, hn, hj, by omega, by omega⟩
  have hp₂ : s₂.Subtree L' tight (k + 1) lo₀ upKey.toNat par p u₁ := by
    refine ⟨(hold h.label).trans h.label, by rw [hs₂]; exact hparp.trans h.parent, a,
      by rw [hs₂]; exact hleft, subtrees_congr hkept (fun n hn => ?_) fun v _ => by rw [hs₂]⟩
    obtain ⟨j, x, hn, hj, hx⟩ := hn
    exact hstay n j x hn (by omega) fun _ => .inl (by omega)
  have hlen : (b ++ (c, hi) :: l₂).length < mapleNodeSlots := by
    rw [hcons, List.length_append, ha] at hfull
    have hmid : splitMid = 5 := rfl
    omega
  obtain ⟨nodes', hfind, hins, hsub, hp', hrest⟩ :=
    haround.insert_beside hlen hc₂ hd₂ hkey hp₂ (.inl le_rfl)
  have hcmp : ¬ key < upKey := by
    rw [BitVec.lt_def]
    omega
  have hstate : ({ s₂ with nodes := nodes' } : MapleState) = { s with nodes := nodes' } := by rw [hs₂]
  rw [hstate] at hins hsub hp'
  rw [hL'] at hsub hp'
  refine ⟨nodes₂, upKey, b.length, nodes', u₁, _, hres, ?_, ?_, hp', hsub, by simp, ?_⟩
  · rw [if_neg hcmp]
    rw [hs₂] at hfind
    exact hfind
  · rw [if_neg hcmp]
    rw [hs₂] at hins
    exact hins
  · refine fun n => h.outside hd (by omega) hhi (.inr rfl) (fun n hnp hnq hx => hsame n hnp hnq
      fun e he => ?_) fun n hnq hnd => by rw [hrest n hnq hnd, hs₂]
    rintro rfl
    obtain ⟨y, hy, hge, hle⟩ := MapleState.subtrees_label (c := e.1) (b := e.2) hmoved he
    have := hx y hy
    omega

/-- **A full node is split**, and the two halves of a child are put in its place. -/
theorem MapleState.Around.split (h : s.Around L tight k lo₀ hi₀ par p l₁ c lo hi l₂ wL wR)
    (hfull : (l₁ ++ (c, hi) :: l₂).length = mapleNodeSlots)
    (hc : s.Subtree L tight k lo mid (some p) c v₁) (hd : s.Subtree L tight k mid hi par' d v₂)
    (hkey : key.toNat = mid) {q : ℕ} (hq : L q = none) (hqpar : (s.nodes q).parent = none) :
    s.SplitsInto L tight k lo₀ hi₀ par p q d key (wL ++ ((v₁ ++ v₂) ++ wR)) := by
  rcases Nat.lt_or_ge l₁.length splitMid with hside | hside
  · exact h.splitStay hfull hc hd hkey hq hqpar hside
  · exact h.splitMove hfull hc hd hkey hq hqpar hside

/-- A node and its children in a state with the same nodes. -/
theorem MapleState.Around.congr (h : s.Around L tight k lo₀ hi₀ par p l₁ c lo hi l₂ wL wR)
    {s' : MapleState} (hnodes : ∀ n x, L n = some x → s'.nodes n = s.nodes n)
    (hvmas : s'.vmas = s.vmas) : s'.Around L tight k lo₀ hi₀ par p l₁ c lo hi l₂ wL wR := by
  have hp := hnodes p _ h.label
  refine ⟨h.label, by rw [hp]; exact h.parent, by rw [hp]; exact h.children,
    subtrees_congr h.front (fun n hn => ?_) fun v _ => by rw [hvmas],
    subtrees_congr h.behind (fun n hn => ?_) fun v _ => by rw [hvmas]⟩
  · obtain ⟨j, x, hn, -⟩ := hn
    exact ⟨hnodes n _ hn, rfl⟩
  · obtain ⟨j, x, hn, -⟩ := hn
    exact ⟨hnodes n _ hn, rfl⟩

end Around

/-! ### The way up -/

/-- **The pool holds a tree** with the areas `vs`, and the nodes `free` are left. -/
structure MapleState.Tree (s : MapleState) (L : MapleLabels) (tight : Prop) (height root : ℕ)
    (vs free : List ℕ) : Prop where
  root_eq : s.root = some root
  subtree : s.Subtree L tight height 0 (2 ^ 32) none root vs
  free : s.FreeNodes L free

section InsertUp
variable {tight : Prop} {height root : ℕ}

/-- **A root that was split** gets a new root above the halves. -/
theorem mapleInsertUp_root {s : MapleState} {L : MapleLabels} {n mid c d : ℕ} {par' : Option ℕ}
    {v₁ v₂ free : List ℕ} {key : U32} (hc : s.Subtree L tight height 0 mid none c v₁)
    (hd : s.Subtree L tight height mid (2 ^ 32) par' d v₂) (hkey : key.toNat = mid) {r : ℕ}
    (hfree : s.FreeNodes L (r :: free)) :
    ∃ s', mapleInsertUp mapleNodeSlots (n + 1) c d key s = .ok s' ∧ s'.vmas = s.vmas ∧
      s'.vmaFree = s.vmaFree ∧ s'.count = s.count ∧
      s'.Tree (update L r (some (height + 1, 0))) tight (height + 1) r (v₁ ++ v₂) free := by
  have hclt := hc.lt
  have hr : L r = none := hfree.fresh r List.mem_cons_self
  have hcr : c ≠ r := ne_of_label hr hc.label
  have hdr : d ≠ r := ne_of_label hr hd.label
  have hcd : c ≠ d := label_ne hc.label hd.label (by simp only [ne_eq, Prod.mk.injEq]; omega)
  -- three nodes are written: the new root, and the two halves, which get it as their parent
  obtain ⟨rootNode, hroot⟩ : ∃ rootNode : MapleNode, rootNode = ⟨update MapleNode.empty.pivots 0 key, 2#8,
      false, none, update (update MapleNode.empty.slots 0 (some c)) 1 (some d)⟩ := ⟨_, rfl⟩
  obtain ⟨nodes', hnodes⟩ : ∃ nodes' : ℕ → MapleNode, nodes' = update (update (update s.nodes r rootNode) c
      { s.nodes c with parent := some r }) d { s.nodes d with parent := some r } := ⟨_, rfl⟩
  obtain ⟨s', hs'⟩ : ∃ s' : MapleState, s' = { s with
      nodes := nodes', nodeFree := (s.nodes r).parent, root := some r } := ⟨_, rfl⟩
  have hrn : s'.nodes r = rootNode := by
    rw [hs']
    dsimp only
    rw [hnodes, Function.update_of_ne hdr.symm, Function.update_of_ne hcr.symm, Function.update_self]
  have hcn : s'.nodes c = { s.nodes c with parent := some r } := by
    rw [hs']
    dsimp only
    rw [hnodes, Function.update_of_ne hcd, Function.update_self]
  have hdn : s'.nodes d = { s.nodes d with parent := some r } := by
    rw [hs']
    dsimp only
    rw [hnodes, Function.update_self]
  have hrest : ∀ m, m ≠ r → m ≠ c → m ≠ d → s'.nodes m = s.nodes m := by
    intro m hmr hmc hmd
    rw [hs']
    dsimp only
    rw [hnodes, Function.update_of_ne hmd, Function.update_of_ne hmc, Function.update_of_ne hmr]
  have hL : ∀ {m x}, L m = some x → update L r (some (height + 1, 0)) m = L m := fun hm =>
    Function.update_of_ne (ne_of_label hr hm) ..
  refine ⟨s', ?_, by rw [hs'], by rw [hs'], by rw [hs'], ⟨by rw [hs'], ?_, ?_⟩⟩
  · rw [mapleInsertUp, hc.parent]
    dsimp only
    rw [hfree.alloc_some]
    dsimp only
    rw [Function.update_self, MapleNode.setPivot_ok (by decide), MapleM.ok_bind,
      MapleNode.setSlot_ok (by decide), MapleM.ok_bind, MapleNode.setSlot_ok (by decide), MapleM.ok_bind,
      hs', hnodes, hroot]
    simp only [MapleState.setNode, Function.update_idem, Function.update_of_ne hcr,
      Function.update_of_ne hdr, Function.update_of_ne hcd.symm]
    rfl
  · refine ⟨Function.update_self .., by rw [hrn, hroot], [(c, mid), (d, 2 ^ 32)], ?_,
      ⟨v₁, v₂, ?_, ⟨v₂, [], ?_, ⟨rfl, rfl⟩, by simp⟩, rfl⟩⟩
    · rw [hrn, hroot]
      have hlen : 2 ≤ mapleNodeSlots := by decide
      refine ⟨rfl, rfl, by simp, hlen, fun {i e} he => ?_, fun {i e} he hi => ?_⟩
      · rcases i with _ | _ | i
        · obtain rfl := Option.some.inj he
          rfl
        · obtain rfl := Option.some.inj he
          rfl
        · simp at he
      · obtain rfl : i = 0 := by
          have hi' : i + 1 < 2 := hi
          omega
        obtain rfl := Option.some.inj he
        exact hkey
    · refine hc.frame hcn (hL hc.label) (fun m hm => ?_) fun v _ => by rw [hs']
      obtain ⟨j, x, hm, hj, hx⟩ := hm
      exact ⟨hrest m (ne_of_label hr hm)
        (label_ne hm hc.label (by simp only [ne_eq, Prod.mk.injEq]; omega))
        (label_ne hm hd.label (by simp only [ne_eq, Prod.mk.injEq]; omega)), hL hm⟩
    · refine hd.frame hdn (hL hd.label) (fun m hm => ?_) fun v _ => by rw [hs']
      obtain ⟨j, x, hm, hj, hx⟩ := hm
      exact ⟨hrest m (ne_of_label hr hm)
        (label_ne hm hc.label (by simp only [ne_eq, Prod.mk.injEq]; omega))
        (label_ne hm hd.label (by simp only [ne_eq, Prod.mk.injEq]; omega)), hL hm⟩
  · refine hfree.take (by rw [hs']) (fun m hm => ?_) _
    have hmr : m ≠ r := by
      rintro rfl
      exact (List.nodup_cons.mp hfree.nodup).1 hm
    exact hrest m hmr (hfree.ne_of_label (List.mem_cons_of_mem r hm) hc.label).symm
      (hfree.ne_of_label (List.mem_cons_of_mem r hm) hd.label).symm

section Parent
variable {s : MapleState} {L : MapleLabels} {n k lo₀ hi₀ lo mid hi p c d up : ℕ} {par par' : Option ℕ}
  {l₁ l₂ : List (ℕ × ℕ)} {vL vR wL wR v₁ v₂ free : List ℕ} {key : U32}

/-- **A parent with a free place** takes the new node, and the way up ends. -/
theorem mapleInsertUp_place (hroot : s.root = some root)
    (above : s.Path L tight height root (k + 1) lo₀ hi₀ par p vL vR up)
    (h : s.Around L tight k lo₀ hi₀ par p l₁ c lo hi l₂ wL wR)
    (hroom : (l₁ ++ (c, hi) :: l₂).length < mapleNodeSlots)
    (hc : s.Subtree L tight k lo mid (some p) c v₁) (hd : s.Subtree L tight k mid hi par' d v₂)
    (hkey : key.toNat = mid) (hfree : s.FreeNodes L free) :
    ∃ s', mapleInsertUp mapleNodeSlots (n + 1) c d key s = .ok s' ∧ s'.vmas = s.vmas ∧
      s'.vmaFree = s.vmaFree ∧ s'.count = s.count ∧
      s'.Tree L tight height root (vL ++ (wL ++ ((v₁ ++ v₂) ++ wR) ++ vR)) free := by
  have hlt : ∀ a b d w, s.Subtree L tight k a b (some p) d w → a < b := fun a b d w hs => hs.lt
  have hlo := h.front.le hlt
  have hhi := h.behind.le hlt
  have hclt := hc.lt
  have hdlt := hd.lt
  obtain ⟨nodes', hfind, hins, hsub, hrest⟩ := h.insert hroom hc hd hkey
  have habove : MapleState.Path { s with nodes := nodes' } L tight height root (k + 1) lo₀ hi₀ par p
      vL vR up := by
    refine above.congr (fun m hm hno => ⟨hrest m ?_ ?_, rfl⟩) fun v _ => rfl
    · rintro rfl
      exact hno ⟨k + 1, lo₀, h.label, by omega, le_rfl, by omega⟩
    · rintro rfl
      exact hno ⟨k, mid, hd.label, by omega, by omega, by omega⟩
  refine ⟨{ s with nodes := nodes' }, ?_, rfl, rfl, rfl, hroot, habove.plug hsub, hfree.congr rfl fun m hm =>
    hrest m (hfree.ne_of_label hm h.label).symm (hfree.ne_of_label hm hd.label).symm⟩
  have hnr : (s.nodes p).nrEntries.toNat < mapleNodeSlots := by rwa [h.children.nrEntries]
  rw [mapleInsertUp, hc.parent]
  dsimp only
  rw [if_pos hnr, hfind, MapleM.ok_bind, hins]

/-- A full parent without a free node is left as it is. -/
theorem mapleInsertUp_noNode (hfull : (l₁ ++ (c, hi) :: l₂).length = mapleNodeSlots)
    (h : s.Around L tight k lo₀ hi₀ par p l₁ c lo hi l₂ wL wR)
    (hc : s.Subtree L tight k lo mid (some p) c v₁) (hfree : s.FreeNodes L []) :
    mapleInsertUp mapleNodeSlots (n + 1) c d key s = .ok s := by
  have hnr : ¬ (s.nodes p).nrEntries.toNat < mapleNodeSlots := by
    rw [h.children.nrEntries, hfull]
    exact lt_irrefl _
  rw [mapleInsertUp, hc.parent]
  dsimp only
  rw [if_neg hnr, hfree.alloc_none]
  rfl

/-- **A full parent is split** into a free node, and the way up goes on with its second half. -/
theorem mapleInsertUp_split {q : ℕ} (above : s.Path L tight height root (k + 1) lo₀ hi₀ par p vL vR up)
    (h : s.Around L tight k lo₀ hi₀ par p l₁ c lo hi l₂ wL wR)
    (hfull : (l₁ ++ (c, hi) :: l₂).length = mapleNodeSlots)
    (hc : s.Subtree L tight k lo mid (some p) c v₁) (hd : s.Subtree L tight k mid hi par' d v₂)
    (hkey : key.toNat = mid) (hfree : s.FreeNodes L (q :: free)) :
    ∃ s' L' upKey x₁ x₂, mapleInsertUp mapleNodeSlots (n + 1) c d key s =
        mapleInsertUp mapleNodeSlots n p q upKey s' ∧
      s'.vmas = s.vmas ∧ s'.vmaFree = s.vmaFree ∧ s'.count = s.count ∧ s'.root = s.root ∧
      s'.Path L' tight height root (k + 1) lo₀ hi₀ par p vL vR up ∧
      s'.Subtree L' tight (k + 1) lo₀ upKey.toNat par p x₁ ∧
      s'.Subtree L' tight (k + 1) upKey.toNat hi₀ none q x₂ ∧ s'.FreeNodes L' free ∧
      x₁ ++ x₂ = wL ++ ((v₁ ++ v₂) ++ wR) := by
  have hq : L q = none := hfree.fresh q List.mem_cons_self
  -- the state in which `q` is taken
  obtain ⟨s₁, hs₁⟩ : ∃ s₁ : MapleState, s₁ = { s with
      nodes := update s.nodes q .empty, nodeFree := (s.nodes q).parent } := ⟨_, rfl⟩
  have hnodes₁ : ∀ m, m ≠ q → s₁.nodes m = s.nodes m := fun m hm => by
    rw [hs₁]
    exact Function.update_of_ne hm ..
  have hvmas₁ : s₁.vmas = s.vmas := by rw [hs₁]
  have hlabelled : ∀ m x, L m = some x → s₁.nodes m = s.nodes m := fun m x hm =>
    hnodes₁ m (ne_of_label hq hm)
  have hc₁ : s₁.Subtree L tight k lo mid (some p) c v₁ := by
    refine hc.congr (fun m hm => ?_) fun v _ => by rw [hvmas₁]
    obtain ⟨j, x, hm, -⟩ := hm
    exact ⟨hlabelled m _ hm, rfl⟩
  have hd₁ : s₁.Subtree L tight k mid hi par' d v₂ := by
    refine hd.congr (fun m hm => ?_) fun v _ => by rw [hvmas₁]
    obtain ⟨j, x, hm, -⟩ := hm
    exact ⟨hlabelled m _ hm, rfl⟩
  have hqpar : (s₁.nodes q).parent = none := by
    rw [hs₁]
    dsimp only
    rw [Function.update_self]
    rfl
  obtain ⟨nodes₂, upKey, pos, nodes', x₁, x₂, hsplit, hfind, hins, hp', hq', happ, houter⟩ :=
    (h.congr hlabelled hvmas₁).split hfull hc₁ hd₁ hkey hq hqpar
  obtain ⟨s', hs'⟩ : ∃ s' : MapleState, s' = { s₁ with nodes := nodes' } := ⟨_, rfl⟩
  rw [← hs'] at hp' hq' hins
  have hnodes' : ∀ m, m ≠ q → ¬ L.Below (k + 2) lo₀ hi₀ m → s'.nodes m = s.nodes m := by
    intro m hm hno
    rw [hs']
    exact (houter m hm hno).trans (hnodes₁ m hm)
  have hvmas' : s'.vmas = s.vmas := by rw [hs', ← hvmas₁]
  refine ⟨s', _, upKey, x₁, x₂, ?_, hvmas', by rw [hs', hs₁], by rw [hs', hs₁], by rw [hs', hs₁], ?_, hp', hq',
    ?_, happ⟩
  · have hnr : ¬ (s.nodes p).nrEntries.toNat < mapleNodeSlots := by
      rw [h.children.nrEntries, hfull]
      exact lt_irrefl _
    have halloc : nodeAlloc s = (s₁, some q) := by rw [hfree.alloc_some, hs₁]
    rw [mapleInsertUp, hc.parent]
    dsimp only
    rw [if_neg hnr, halloc]
    dsimp only
    rw [hsplit, MapleM.ok_bind]
    dsimp only
    rw [hfind, MapleM.ok_bind, hins, MapleM.ok_bind]
  · refine above.congr (fun m hm hno => ?_) fun v _ => by rw [hvmas']
    have hmq : m ≠ q := by
      rintro rfl
      exact hm hq
    exact ⟨hnodes' m hmq hno, Function.update_of_ne hmq ..⟩
  · refine hfree.take (by rw [hs', hs₁]) (fun m hm => hnodes' m ?_ ?_) _
    · rintro rfl
      exact (List.nodup_cons.mp hfree.nodup).1 hm
    · rintro ⟨j, x, hx, -⟩
      exact hfree.ne_of_label (List.mem_cons_of_mem q hm) hx rfl

end Parent

/-- **The way up**: the new node behind a split child gets a place in the tree when there are enough nodes
for the splits above; else the tree goes without what found no place. -/
theorem mapleInsertUp_spec (n : ℕ) {s : MapleState} {L : MapleLabels} {k lo mid hi c d up : ℕ}
    {par par' : Option ℕ} {vL vR v₁ v₂ free : List ℕ} {key : U32} (hroot : s.root = some root)
    (hpath : s.Path L tight height root k lo hi par c vL vR up)
    (hc : s.Subtree L tight k lo mid par c v₁) (hd : s.Subtree L tight k mid hi par' d v₂)
    (hkey : key.toNat = mid) (hfree : s.FreeNodes L free) (hn : height < n + k) :
    ∃ s' L' height' root' free' vs', mapleInsertUp mapleNodeSlots n c d key s = .ok s' ∧
      s'.vmas = s.vmas ∧ s'.vmaFree = s.vmaFree ∧ s'.count = s.count ∧
      s'.Tree L' tight height' root' vs' free' ∧ vs'.Sublist (vL ++ ((v₁ ++ v₂) ++ vR)) ∧
      (up ≤ free.length → vs' = vL ++ ((v₁ ++ v₂) ++ vR)) := by
  induction n generalizing s L k lo mid hi c d up par par' vL vR v₁ v₂ free key with
  | zero =>
    have hle := hpath.level_le
    omega
  | succ n ih =>
    cases hpath with
    | root =>
      cases free with
      | nil =>
        -- no node for a new root
        refine ⟨s, L, height, root, [], v₁, ?_, rfl, rfl, rfl, ⟨hroot, hc.extend hd.lt.le, hfree⟩, ?_,
          fun hle => absurd hle (by simp)⟩
        · rw [mapleInsertUp, hc.parent]
          dsimp only
          rw [hfree.alloc_none]
          rfl
        · simp
      | cons r free =>
        obtain ⟨s', hres, hvmas, hvmaFree, hcount, htree⟩ := mapleInsertUp_root (n := n) hc hd hkey hfree
        exact ⟨s', _, _, _, _, _, hres, hvmas, hvmaFree, hcount, htree, by simp, fun _ => by simp⟩
    | @child _ lo₀ hi₀ p _ _ _ up par l₁ l₂ vL vR wL wR above label parent children front lt behind =>
      have h : s.Around L tight k lo₀ hi₀ par p l₁ c lo hi l₂ wL wR :=
        ⟨label, parent, children, front, behind⟩
      by_cases hroom : (l₁ ++ (c, hi) :: l₂).length < mapleNodeSlots
      · obtain ⟨s', hres, hvmas, hvmaFree, hcount, htree⟩ :=
          mapleInsertUp_place (n := n) hroot above h hroom hc hd hkey hfree
        exact ⟨s', L, height, root, free, _, hres, hvmas, hvmaFree, hcount, htree, by simp, fun _ => by simp⟩
      have hfull : (l₁ ++ (c, hi) :: l₂).length = mapleNodeSlots :=
        le_antisymm children.length_le (not_lt.mp hroom)
      cases free with
      | nil =>
        refine ⟨s, L, height, root, [], _, mapleInsertUp_noNode hfull h hc hfree, rfl, rfl, rfl,
          ⟨hroot, above.plug ⟨label, parent, _, children,
            RangeChain.middle_iff.mpr ⟨lo, wL, v₁, wR, front, hc.extend hd.lt.le, behind, rfl⟩⟩, hfree⟩,
          by simp, fun hle => ?_⟩
        rw [if_neg hroom] at hle
        simp at hle
      | cons q free =>
        -- the second half of the parent goes up
        obtain ⟨s', L', upKey, x₁, x₂, hstep, hvmas', hvmaFree', hcount', hroot', habove, hp', hq', hfree',
          happ⟩ := mapleInsertUp_split (n := n) above h hfull hc hd hkey hfree
        obtain ⟨t, L'', height', root', free', vs', hres, hvmas, hvmaFree, hcount, htree, hsub, hall⟩ :=
          ih (hroot'.trans hroot) habove hp' hq' rfl hfree' (by omega)
        rw [happ] at hsub hall
        refine ⟨t, L'', height', root', free', vs', hstep.trans hres, hvmas.trans hvmas',
          hvmaFree.trans hvmaFree', hcount.trans hcount', htree, by simpa using hsub, fun hle => ?_⟩
        rw [hall ?_]
        · simp
        · rw [if_neg hroom, List.length_cons] at hle
          omega

end InsertUp

end Microkernel.Vma
