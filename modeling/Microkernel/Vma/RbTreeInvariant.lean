import Microkernel.Vma.RbTreeRefinement
import Mathlib.Data.Set.Card

/-! # The red-black properties in terms of the pointers

What the invariant of the backend says about the nodes themselves: which nodes hang in the tree,
which are on the free list, and what every downward path from a node to `NIL` looks like.

* **`InTree`, `OnFreeList`, `Walk`** — what can be reached from the root, from the head of the free list,
  and along a downward path.
* **`IsRedBlackTree`** — the properties of the pointers, with no tree in them.
* **`rb_isRedBlackTree`** — every sequence of calls returns and leaves a state that has them.
-/

namespace Microkernel.Vma

open RedBlackTree

/-- The node hangs in the tree: it is reached from `g_root` through `left` and `right`. -/
inductive RbState.InTree (s : RbState) : Ref → Prop where
  | root : s.root ≠ .nil → s.InTree s.root
  | child {x : Ref} (d : Side) : s.InTree x → s.child d x ≠ .nil → s.InTree (s.child d x)

/-- The node is on the free list: it is reached from `g_free_head` through `right`. -/
inductive RbState.OnFreeList (s : RbState) : Ref → Prop where
  | head : s.freeHead ≠ .null → s.OnFreeList s.freeHead
  | next {x : Ref} : s.OnFreeList x → s.child .right x ≠ .null → s.OnFreeList (s.child .right x)

/-- `s.Walk x b n`: some downward path from `x` to `NIL` has `n` nodes, `b` of them black. -/
inductive RbState.Walk (s : RbState) : Ref → ℕ → ℕ → Prop where
  | nil : s.Walk .nil 0 0
  | red {x : Ref} {b n : ℕ} (d : Side) : x ≠ .nil → s.color x = .red →
      s.Walk (s.child d x) b n → s.Walk x b (n + 1)
  | black {x : Ref} {b n : ℕ} (d : Side) : x ≠ .nil → s.color x = .black →
      s.Walk (s.child d x) b n → s.Walk x (b + 1) (n + 1)

/-- **The red-black tree properties** of the static data. -/
structure RbState.IsRedBlackTree (s : RbState) : Prop where
  root_black : s.color s.root = .black
  nil_black : s.color .nil = .black
  /-- No red node has a red child. -/
  red_child : ∀ x, s.InTree x → s.color x = .red → ∀ d, s.color (s.child d x) = .black
  /-- All paths from a node down to `NIL` have the same number of black nodes. -/
  black_height : ∀ x, s.InTree x → ∀ b b' n n', s.Walk x b n → s.Walk x b' n' → b = b'
  /-- Each child's parent pointer is the node that holds it. -/
  child_parent : ∀ x, s.InTree x → ∀ d, s.child d x ≠ .nil → s.parent (s.child d x) = x
  /-- Nodes in the tree are pool nodes. -/
  inTree_pool : ∀ x, s.InTree x → ∃ i < rbMaxNodes, x = .pool i
  /-- Nodes on the free list are pool nodes. -/
  onFreeList_pool : ∀ x, s.OnFreeList x → ∃ i < rbMaxNodes, x = .pool i
  /-- Every pool node is in the tree or on the free list, and never both. -/
  partition : ∀ i < rbMaxNodes, s.InTree (.pool i) ↔ ¬ s.OnFreeList (.pool i)
  /-- `g_count` is the number of nodes in the tree. -/
  count_eq : s.count = {x | s.InTree x}.ncard
  /-- No path from the root to `NIL` has more than `2 log₂ (n + 1)` nodes. -/
  height : ∀ b n, s.Walk s.root b n → n ≤ 2 * Nat.log 2 (s.count + 1)

/-! ### Reading the properties off the stored tree -/

/-- Every label is at some focus. -/
theorem exists_focus {κ : Type*} {T : ColorTree κ} {k : κ} (hk : k ∈ T.toList) :
    ∃ p c l r, T = plug p (.node c l k r) := by
  induction T with
  | leaf => simp at hk
  | node c l k' r ihl ihr =>
      rw [ColorTree.toList_node, List.mem_append, List.mem_cons] at hk
      rcases hk with hk | rfl | hk
      · obtain ⟨p, c', l', r', rfl⟩ := ihl hk
        exact ⟨p ++ [⟨.left, c, k', r⟩], c', l', r', by rw [plug_append]; rfl⟩
      · exact ⟨[], c, l, r, rfl⟩
      · obtain ⟨p, c', l', r', rfl⟩ := ihr hk
        exact ⟨p ++ [⟨.right, c, k', l⟩], c', l', r', by rw [plug_append]; rfl⟩

namespace RbState.Stores

variable {s : RbState} {T : ColorTree Cell} {free : List ℕ}

/-- The node at a focus hangs in the tree. -/
theorem inTree_focus (h : s.Stores T free) {p : Path Cell} {t : ColorTree Cell} (hT : T = plug p t)
    (ht : t ≠ .leaf) : s.InTree (treeRef t) := by
  subst hT
  have hne : ∀ {t : ColorTree Cell}, t ≠ .leaf → treeRef t ≠ .nil := by
    intro t ht
    cases t with
    | leaf => exact absurd rfl ht
    | node c l k r => simp
  induction p generalizing t with
  | nil =>
      have hroot : s.root = treeRef t := h.root
      rw [← hroot]
      exact .root (hroot ▸ hne ht)
  | cons f p ih =>
      have hf : f.fill t ≠ .leaf := by
        obtain ⟨d, c, k, u⟩ := f
        cases d <;> simp [Frame.fill, Side.build]
      have hparent := ih hf h
      have hchild : s.child f.side f.key.ref = treeRef t :=
        RbState.Tracks.child_focus (p := p) h.tracks
      rw [treeRef_fill] at hparent
      rw [← hchild]
      exact .child f.side hparent (hchild ▸ hne ht)

/-- A node that hangs in the tree is at some focus. -/
theorem exists_focus_of_inTree (h : s.Stores T free) {x : Ref} (hx : s.InTree x) :
    ∃ p c l k r, T = plug p (.node c l k r) ∧ x = k.ref := by
  induction hx with
  | root hroot =>
      rw [h.root] at hroot ⊢
      cases T with
      | leaf => exact absurd rfl hroot
      | node c l k r => exact ⟨[], c, l, k, r, rfl, rfl⟩
  | child d _ hchild ih =>
      obtain ⟨p, c, l, k, r, rfl, rfl⟩ := ih
      obtain ⟨t, u, htu⟩ := ColorTree.node_eq_build d c l k r
      rw [htu] at h ⊢
      rw [h.tracks.child_focus] at hchild ⊢
      cases t with
      | leaf => exact absurd rfl hchild
      | node c' l' k' r' => exact ⟨⟨d, c, k, u⟩ :: p, c', l', k', r', rfl, rfl⟩

/-- The nodes that hang in the tree are the entries of the stored tree. -/
theorem inTree_iff (h : s.Stores T free) {x : Ref} : s.InTree x ↔ ∃ i ∈ idxs T, x = .pool i := by
  constructor
  · intro hx
    obtain ⟨p, c, l, k, r, rfl, rfl⟩ := h.exists_focus_of_inTree hx
    exact ⟨k.idx, mem_idxs_plug.mpr (.inl (by simp [idxs])), rfl⟩
  · rintro ⟨i, hi, rfl⟩
    obtain ⟨k, hk, rfl⟩ := List.mem_map.mp hi
    obtain ⟨p, c, l, r, hT⟩ := exists_focus hk
    exact h.inTree_focus hT (by simp)

/-- A node on the free list starts the rest of the chain. -/
theorem exists_suffix_of_onFreeList (h : s.Stores T free) {x : Ref} (hx : s.OnFreeList x) :
    ∃ l₁ i l₂, free = l₁ ++ i :: l₂ ∧ FreeChain s.mem x (i :: l₂) := by
  induction hx with
  | head hne =>
      have hchain := h.chain
      cases free with
      | nil => exact absurd hchain hne
      | cons i free => exact ⟨[], i, free, rfl, hchain⟩
  | next _ hne ih =>
      obtain ⟨l₁, i, l₂, hfree, rfl, hchain⟩ := ih
      cases l₂ with
      | nil => exact absurd hchain hne
      | cons j l₂ => exact ⟨l₁ ++ [i], j, l₂, by simp [hfree], hchain⟩

/-- The nodes on the free list are the free entries. -/
theorem onFreeList_iff (h : s.Stores T free) {x : Ref} :
    s.OnFreeList x ↔ ∃ i ∈ free, x = .pool i := by
  constructor
  · intro hx
    obtain ⟨l₁, i, l₂, rfl, rfl, -⟩ := h.exists_suffix_of_onFreeList hx
    exact ⟨i, by simp, rfl⟩
  · rintro ⟨i, hi, rfl⟩
    have hall : ∀ (l : List ℕ) (y : Ref), FreeChain s.mem y l →
        (y ≠ .null → s.OnFreeList y) → ∀ j ∈ l, s.OnFreeList (.pool j) := by
      intro l
      induction l with
      | nil => simp
      | cons k l ih =>
          rintro y ⟨rfl, hchain⟩ hy j hj
          have hk := hy (by simp)
          rcases List.mem_cons.mp hj with rfl | hj
          · exact hk
          · exact ih _ hchain (fun hne => .next hk hne) j hj
    exact hall free _ h.chain (fun hne => .head hne) i hi

end RbState.Stores

/-- **Downward paths.** From a balanced subtree every path to `NIL` has as many black nodes as the
black height says, and at most one red node for each of them, one more from a red root. -/
theorem RbState.Walk.of_balanced {s : RbState} {par : Ref} {t : ColorTree Cell} {c : Color} {h : ℕ}
    (hbal : Balanced t c h) (hlaid : LaidOut s.mem par t) {b n : ℕ} (hw : s.Walk (treeRef t) b n) :
    b = h ∧ n ≤ 2 * h + (if c = .red then 1 else 0) := by
  induction hbal generalizing par b n with
  | leaf =>
      cases hw with
      | nil => exact ⟨rfl, le_rfl⟩
      | red d hne => exact absurd rfl hne
      | black d hne => exact absurd rfl hne
  | @red l r k h hl hr ihl ihr =>
      obtain ⟨hk, hlaidl, hlaidr⟩ := hlaid
      have hcolor : s.color k.ref = .red := by rw [RbState.color, hk]
      have hchild : ∀ {b n}, ∀ d, s.Walk (s.child d k.ref) b n → b = h ∧ n ≤ 2 * h := by
        intro b n d hw
        rw [RbState.child, hk] at hw
        cases d
        exacts [ihl hlaidl hw, ihr hlaidr hw]
      rw [treeRef_node] at hw
      generalize hx : k.ref = x at hw
      cases hw with
      | nil => exact absurd hx (by simp)
      | red d _ _ hw =>
          subst hx
          obtain ⟨rfl, hn⟩ := hchild d hw
          exact ⟨rfl, by simp only [if_true]; omega⟩
      | black d _ hblack =>
          subst hx
          rw [hcolor] at hblack
          cases hblack
  | @black l r k c c' h hl hr ihl ihr =>
      obtain ⟨hk, hlaidl, hlaidr⟩ := hlaid
      have hcolor : s.color k.ref = .black := by rw [RbState.color, hk]
      have hchild : ∀ {b n}, ∀ d, s.Walk (s.child d k.ref) b n → b = h ∧ n ≤ 2 * h + 1 := by
        intro b n d hw
        rw [RbState.child, hk] at hw
        cases d
        · obtain ⟨rfl, hn⟩ := ihl hlaidl hw
          exact ⟨rfl, hn.trans (by split <;> omega)⟩
        · obtain ⟨rfl, hn⟩ := ihr hlaidr hw
          exact ⟨rfl, hn.trans (by split <;> omega)⟩
      rw [treeRef_node] at hw
      generalize hx : k.ref = x at hw
      cases hw with
      | nil => exact absurd hx (by simp)
      | red d _ hred =>
          subst hx
          rw [hcolor] at hred
          cases hred
      | black d _ _ hw =>
          subst hx
          obtain ⟨rfl, hn⟩ := hchild d hw
          exact ⟨rfl, by simp only [reduceCtorEq, if_false]; omega⟩

/-- A state that stores a tree has the red-black properties. -/
theorem RbState.Stores.isRedBlackTree {s : RbState} {T : ColorTree Cell} {free : List ℕ}
    (h : s.Stores T free) : s.IsRedBlackTree := by
  obtain ⟨m, hbal⟩ := h.balanced
  have hbound : ∀ i, i ∈ idxs T ∨ i ∈ free ↔ i < rbMaxNodes := fun i => by
    rw [← List.mem_append, h.partition.mem_iff, List.mem_range]
  constructor
  case root_black =>
    rw [h.root, RbState.Tracks.color_focus (p := []) h.tracks, treeColor_of_balanced hbal]
  case nil_black => exact h.nilBlack
  case red_child =>
    intro x hx hred d
    obtain ⟨p, c, l, k, r, rfl, rfl⟩ := h.exists_focus_of_inTree hx
    obtain ⟨t, u, htu⟩ := ColorTree.node_eq_build d c l k r
    rw [htu] at h hbal
    obtain ⟨c', n, ht, -⟩ := hbal.of_plug
    have hc : s.color k.ref = c := by
      rw [← treeRef_build d c t k u, h.tracks.color_focus, treeColor_build]
    rw [hred] at hc
    subst hc
    rw [h.tracks.child_focus, RbState.Tracks.color_focus (p := ⟨d, _, k, u⟩ :: p) h.tracks,
      treeColor_of_balanced ht.of_build_red.2.1]
  case black_height =>
    intro x hx b b' n n' hw hw'
    obtain ⟨p, c, l, k, r, rfl, rfl⟩ := h.exists_focus_of_inTree hx
    obtain ⟨c', n, ht, -⟩ := hbal.of_plug
    have hlaid := h.tracks.focus.2
    exact (hw.of_balanced ht hlaid).1.trans (hw'.of_balanced ht hlaid).1.symm
  case child_parent =>
    intro x hx d hne
    obtain ⟨p, c, l, k, r, rfl, rfl⟩ := h.exists_focus_of_inTree hx
    obtain ⟨t, u, htu⟩ := ColorTree.node_eq_build d c l k r
    rw [htu] at h
    have ht := h.tracks
    rw [ht.child_focus] at hne ⊢
    exact RbState.Tracks.parent_treeRef (p := ⟨d, c, k, u⟩ :: p) ht fun hleaf => by
      rw [hleaf] at hne
      exact absurd rfl hne
  case inTree_pool =>
    intro x hx
    obtain ⟨i, hi, rfl⟩ := h.inTree_iff.mp hx
    exact ⟨i, (hbound i).mp (.inl hi), rfl⟩
  case onFreeList_pool =>
    intro x hx
    obtain ⟨i, hi, rfl⟩ := h.onFreeList_iff.mp hx
    exact ⟨i, (hbound i).mp (.inr hi), rfl⟩
  case partition =>
    intro i hi
    simp only [h.inTree_iff, h.onFreeList_iff, Ref.pool.injEq, exists_eq_right']
    have hdisj := (List.nodup_append'.mp h.nodup).2.2
    constructor
    · exact fun hT hfree => hdisj hT hfree
    · exact fun hfree => ((hbound i).mpr hi).resolve_right hfree
  case count_eq =>
    -- the nodes in the tree are the pool entries of its labels, which are different
    have hset : {x | s.InTree x} = Ref.pool '' {i | i ∈ idxs T} := by
      ext x
      rw [Set.mem_ofPred_eq, h.inTree_iff]
      simp [eq_comm]
    rw [hset, Set.ncard_image_of_injective _ fun i j hij => Ref.pool.inj hij]
    have hfin : {i | i ∈ idxs T} = ((idxs T).toFinset : Set ℕ) := by ext i; simp
    rw [hfin, Set.ncard_coe_finset,
      List.toFinset_card_of_nodup (List.nodup_append'.mp h.nodup).1, idxs, List.length_map, h.count]
  case height =>
    intro b n hw
    rw [h.root] at hw
    -- a path has at most twice the black height, which is logarithmic in the count
    obtain ⟨-, hn⟩ := hw.of_balanced hbal h.laidOut
    have hlog := hbal.le_log
    rw [← h.count] at hlog
    simp only [reduceCtorEq, if_false] at hn
    omega

/-- **The backend always holds a red-black tree**: every sequence of calls from `rb_init` returns,
and leaves a state with the red-black properties. -/
theorem rb_isRedBlackTree (s₀ : RbState) (calls : List VmaCall) :
    ∃ s answers, (rbOps.machine s₀).run calls = some (s, answers) ∧ s.IsRedBlackTree := by
  obtain ⟨s, os, hs, S, T, free, hT, -⟩ := Machine.run_invariant (M := rbOps.machine s₀)
    (I := fun s => ∃ S : AreaSet, s.Lists S) ⟨_, rbInit_lists s₀⟩
    (fun s c ⟨S, hS⟩ => by
      obtain ⟨s', S', o, hs, -, hl⟩ := rbOps_call_lists hS c
      exact ⟨s', o, hs, S', hl⟩) calls
  exact ⟨s, os, hs, hT.isRedBlackTree⟩

end Microkernel.Vma
