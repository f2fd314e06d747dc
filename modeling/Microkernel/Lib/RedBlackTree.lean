import Mathlib.Algebra.Group.Nat.Defs
import Mathlib.Data.List.Basic
import Mathlib.Data.Nat.Log

/-! # Red-black trees and their contexts

Binary trees with coloured nodes, together with the path from a subtree up to the root. The repair
loops of the imperative algorithms move such a focus upwards; each of their cases rewrites the
focused subtree and a frame or two of its path. Here are the invariants of a subtree and of a path,
and for every case of the insertion and the deletion repair the statement that it keeps them. Left
and right are a parameter, so that a case and its mirror image are one statement.

* **`ColorTree`, `Frame`, `Side`** — the trees, a step of a path, and on which side of it the focus is;
  `plug` puts a tree back into its path.
* **`Balanced`, `PathBalanced`** — both invariants. A tree in a path is a red-black tree when they meet at
  the colour and the height of the focus.
-/

namespace Microkernel

namespace RedBlackTree

/-- The colour of a node. -/
inductive Color where
  | black
  | red
  deriving DecidableEq, Repr

/-- Which child of its parent a node is. -/
inductive Side where
  | left
  | right
  deriving DecidableEq, Repr

/-- The opposite side. -/
def Side.other : Side → Side
  | .left => .right
  | .right => .left

/-- The other side of the other side is the side itself. -/
@[simp] theorem Side.other_other (d : Side) : d.other.other = d := by cases d <;> rfl

/-- A binary tree with coloured, labelled nodes. -/
inductive ColorTree (κ : Type*) where
  | leaf
  | node (color : Color) (left : ColorTree κ) (key : κ) (right : ColorTree κ)

/-- One step of a path to the root: the parent, which child the focus is, and the other child. -/
structure Frame (κ : Type*) where
  /-- The side of the parent the focus is on. -/
  side : Side
  /-- The parent's colour. -/
  color : Color
  /-- The parent's label. -/
  key : κ
  /-- The subtree on the parent's other side. -/
  sibling : ColorTree κ

/-- The path from a focus to the root, innermost frame first. -/
abbrev Path (κ : Type*) := List (Frame κ)

variable {κ : Type*}

/-- The node with `t` on side `d` and `u` on the other. -/
def Side.build (d : Side) (c : Color) (t : ColorTree κ) (k : κ) (u : ColorTree κ) : ColorTree κ :=
  match d with
  | .left => .node c t k u
  | .right => .node c u k t

/-- A node is built from either side. -/
theorem Side.build_other (d : Side) (c : Color) (t : ColorTree κ) (k : κ) (u : ColorTree κ) :
    d.other.build c t k u = d.build c u k t := by cases d <;> rfl

/-- Every node is built from side `d`. -/
theorem ColorTree.node_eq_build (d : Side) (c : Color) (l : ColorTree κ) (k : κ) (r : ColorTree κ) :
    ∃ t u, ColorTree.node c l k r = d.build c t k u := by
  cases d
  exacts [⟨l, r, rfl⟩, ⟨r, l, rfl⟩]

/-- The parent with the focus put back. -/
def Frame.fill (f : Frame κ) (t : ColorTree κ) : ColorTree κ := f.side.build f.color t f.key f.sibling

/-- The whole tree with the focus put back. -/
def plug : Path κ → ColorTree κ → ColorTree κ
  | [], t => t
  | f :: p, t => plug p (f.fill t)

@[simp] theorem plug_nil (t : ColorTree κ) : plug [] t = t := rfl

/-- Plugging through a frame fills that frame and goes on upwards. -/
@[simp] theorem plug_cons (f : Frame κ) (p : Path κ) (t : ColorTree κ) :
    plug (f :: p) t = plug p (f.fill t) := rfl

/-- Plugging through two paths in turn, the lower one first. -/
theorem plug_append (p q : Path κ) (t : ColorTree κ) : plug (p ++ q) t = plug q (plug p t) := by
  induction p generalizing t with
  | nil => rfl
  | cons f p ih => exact ih (f.fill t)

/-- The tree with a black root. -/
def ColorTree.blacken : ColorTree κ → ColorTree κ
  | .leaf => .leaf
  | .node _ l k r => .node .black l k r

/-- Blackening a node changes its colour only. -/
@[simp] theorem Side.blacken_build (d : Side) (c : Color) (t : ColorTree κ) (k : κ) (u : ColorTree κ) :
    (d.build c t k u).blacken = d.build .black t k u := by cases d <;> rfl

/-! ### In-order listing -/

/-- The labels from left to right. -/
def ColorTree.toList : ColorTree κ → List κ
  | .leaf => []
  | .node _ l k r => l.toList ++ k :: r.toList

@[simp] theorem ColorTree.toList_leaf : (ColorTree.leaf : ColorTree κ).toList = [] := rfl

/-- In order: the left subtree, the key, the right subtree. -/
@[simp] theorem ColorTree.toList_node (c : Color) (l : ColorTree κ) (k : κ) (r : ColorTree κ) :
    (ColorTree.node c l k r).toList = l.toList ++ k :: r.toList := rfl

/-- Colours do not show in the order of the keys. -/
@[simp] theorem ColorTree.toList_blacken (t : ColorTree κ) : t.blacken.toList = t.toList := by cases t <;> rfl

/-- The labels of a path to the left of its focus. -/
def before : Path κ → List κ
  | [] => []
  | ⟨.left, _, _, _⟩ :: p => before p
  | ⟨.right, _, k, u⟩ :: p => before p ++ (u.toList ++ [k])

/-- The labels of a path to the right of its focus. -/
def after : Path κ → List κ
  | [] => []
  | ⟨.left, _, k, u⟩ :: p => k :: u.toList ++ after p
  | ⟨.right, _, _, _⟩ :: p => after p

/-- The keys before the hole of two paths, the outer ones first. -/
theorem before_append (p q : Path κ) : before (p ++ q) = before q ++ before p := by
  induction p with
  | nil => simp [before]
  | cons f p ih =>
      obtain ⟨d, c, k, u⟩ := f
      cases d <;> simp [before, ih]

/-- The keys after the hole of two paths, the inner ones first. -/
theorem after_append (p q : Path κ) : after (p ++ q) = after p ++ after q := by
  induction p with
  | nil => simp [after]
  | cons f p ih =>
      obtain ⟨d, c, k, u⟩ := f
      cases d <;> simp [after, ih]

/-- A plugged tree lists the labels around the focus and those of the focus. -/
theorem toList_plug (p : Path κ) (t : ColorTree κ) :
    (plug p t).toList = before p ++ t.toList ++ after p := by
  induction p generalizing t with
  | nil => simp [before, after]
  | cons f p ih =>
      obtain ⟨d, c, k, u⟩ := f
      rw [plug_cons, ih]
      cases d <;> simp [Frame.fill, Side.build, before, after]

/-- Replacing the focus by a tree with the same listing keeps the listing. -/
theorem toList_plug_congr {p : Path κ} {t u : ColorTree κ} (h : t.toList = u.toList) :
    (plug p t).toList = (plug p u).toList := by rw [toList_plug, toList_plug, h]

/-! ### Balance -/

/-- `Balanced t c n`: the root of `t` has colour `c` (a leaf counts as black), no red node has a red
child, and every path down to a leaf has `n` black nodes. -/
inductive Balanced : ColorTree κ → Color → ℕ → Prop where
  | leaf : Balanced .leaf .black 0
  | red {l r : ColorTree κ} {k : κ} {n : ℕ} :
      Balanced l .black n → Balanced r .black n → Balanced (.node .red l k r) .red n
  | black {l r : ColorTree κ} {k : κ} {c c' : Color} {n : ℕ} :
      Balanced l c n → Balanced r c' n → Balanced (.node .black l k r) .black (n + 1)

/-- `PathBalanced p c n`: putting a tree of root colour `c` and black height `n` into the hole of `p`
gives a red-black tree with a black root. -/
inductive PathBalanced : Path κ → Color → ℕ → Prop where
  | nil {n : ℕ} : PathBalanced [] .black n
  | red {d : Side} {k : κ} {u : ColorTree κ} {p : Path κ} {n : ℕ} :
      Balanced u .black n → PathBalanced p .red n → PathBalanced (⟨d, .red, k, u⟩ :: p) .black n
  | black {d : Side} {k : κ} {u : ColorTree κ} {p : Path κ} {c c' : Color} {n : ℕ} :
      Balanced u c' n → PathBalanced p .black (n + 1) →
        PathBalanced (⟨d, .black, k, u⟩ :: p) c n

/-- A red node over two black-rooted trees of one height, whichever side the first stands on. -/
theorem Balanced.build_red {d : Side} {t u : ColorTree κ} {k : κ} {n : ℕ} (ht : Balanced t .black n)
    (hu : Balanced u .black n) : Balanced (d.build .red t k u) .red n := by
  cases d
  exacts [.red ht hu, .red hu ht]

/-- A black node over two trees of one height adds one to it. -/
theorem Balanced.build_black {d : Side} {t u : ColorTree κ} {k : κ} {c c' : Color} {n : ℕ}
    (ht : Balanced t c n) (hu : Balanced u c' n) :
    Balanced (d.build .black t k u) .black (n + 1) := by
  cases d
  exacts [.black ht hu, .black hu ht]

/-- The subtrees of a balanced red node. -/
theorem Balanced.of_build_red {d : Side} {t u : ColorTree κ} {k : κ} {c : Color} {n : ℕ}
    (h : Balanced (d.build .red t k u) c n) :
    c = .red ∧ Balanced t .black n ∧ Balanced u .black n := by
  cases d <;> cases h
  · exact ⟨rfl, by assumption, by assumption⟩
  · exact ⟨rfl, by assumption, by assumption⟩

/-- The subtrees of a balanced black node. -/
theorem Balanced.of_build_black {d : Side} {t u : ColorTree κ} {k : κ} {c : Color} {m : ℕ}
    (h : Balanced (d.build .black t k u) c m) :
    c = .black ∧ ∃ n c₁ c₂, m = n + 1 ∧ Balanced t c₁ n ∧ Balanced u c₂ n := by
  cases d
  · cases h with
    | black hl hr => exact ⟨rfl, _, _, _, rfl, hl, hr⟩
  · cases h with
    | black hl hr => exact ⟨rfl, _, _, _, rfl, hr, hl⟩

/-- Below a black node of height `n + 1` both subtrees have height `n`. -/
theorem Balanced.of_build_black_succ {d : Side} {t u : ColorTree κ} {k : κ} {c : Color} {n : ℕ}
    (h : Balanced (d.build .black t k u) c (n + 1)) :
    ∃ c₁ c₂, Balanced t c₁ n ∧ Balanced u c₂ n := by
  obtain ⟨-, n', c₁, c₂, hn, ht, hu⟩ := h.of_build_black
  obtain rfl : n = n' := by omega
  exact ⟨c₁, c₂, ht, hu⟩

/-- A tree of positive black height is a node. -/
theorem Balanced.exists_build {t : ColorTree κ} {c : Color} {n : ℕ} (h : Balanced t c (n + 1))
    (d : Side) : ∃ l k r, t = d.build c l k r := by
  cases h with
  | @red l r k _ hl hr =>
      obtain ⟨a, b, hab⟩ := ColorTree.node_eq_build d .red l k r
      exact ⟨a, k, b, hab⟩
  | @black l r k _ _ _ hl hr =>
      obtain ⟨a, b, hab⟩ := ColorTree.node_eq_build d .black l k r
      exact ⟨a, k, b, hab⟩

/-- A red tree is a node. -/
theorem Balanced.exists_build_red {t : ColorTree κ} {n : ℕ} (h : Balanced t .red n) (d : Side) :
    ∃ l k r, t = d.build .red l k r := by
  cases h with
  | @red l r k _ hl hr =>
      obtain ⟨a, b, hab⟩ := ColorTree.node_eq_build d .red l k r
      exact ⟨a, k, b, hab⟩

/-- A hole for a red tree also takes a black one. -/
theorem PathBalanced.toBlack {p : Path κ} {c : Color} {n : ℕ} (h : PathBalanced p c n) :
    PathBalanced p .black n := by
  cases h with
  | nil => exact .nil
  | red hu hp => exact .red hu hp
  | black hu hp => exact .black hu hp

/-- A hole below a red node needs a black tree and the red node a hole for a red tree. -/
theorem PathBalanced.of_red {d : Side} {k : κ} {u : ColorTree κ} {p : Path κ} {c : Color} {n : ℕ}
    (h : PathBalanced (⟨d, .red, k, u⟩ :: p) c n) :
    c = .black ∧ Balanced u .black n ∧ PathBalanced p .red n := by
  cases h with
  | red hu hp => exact ⟨rfl, hu, hp⟩

/-- A black frame on a balanced path has a balanced sibling and a balanced rest one height up. -/
theorem PathBalanced.of_black {d : Side} {k : κ} {u : ColorTree κ} {p : Path κ} {c : Color} {n : ℕ}
    (h : PathBalanced (⟨d, .black, k, u⟩ :: p) c n) :
    (∃ c', Balanced u c' n) ∧ PathBalanced p .black (n + 1) := by
  cases h with
  | black hu hp => exact ⟨⟨_, hu⟩, hp⟩

/-- The parent of a red node is a black node. -/
theorem PathBalanced.exists_black {p : Path κ} {n : ℕ} (h : PathBalanced p .red n) :
    ∃ d k u q, p = ⟨d, .black, k, u⟩ :: q := by
  cases h with
  | black hu hp => exact ⟨_, _, _, _, rfl⟩

/-- Plugging a hole with a tree it takes gives a red-black tree. -/
theorem Balanced.plug {p : Path κ} {t : ColorTree κ} {c : Color} {n : ℕ} (ht : Balanced t c n)
    (hp : PathBalanced p c n) : ∃ m, Balanced (RedBlackTree.plug p t) .black m := by
  induction hp generalizing t with
  | nil => exact ⟨_, ht⟩
  | red hu _ ih => exact ih (.build_red ht hu)
  | black hu _ ih => exact ih (.build_black ht hu)

/-- The focus and the path of a balanced tree, for a path of any length. -/
theorem Balanced.of_plug {p : Path κ} {t : ColorTree κ} {m : ℕ}
    (h : Balanced (RedBlackTree.plug p t) .black m) :
    ∃ c n, Balanced t c n ∧ PathBalanced p c n := by
  induction p generalizing t with
  | nil => exact ⟨.black, m, h, .nil⟩
  | cons f p ih =>
      obtain ⟨d, c, k, u⟩ := f
      obtain ⟨c₁, n, ht, hp⟩ := ih h
      cases c with
      | red =>
          obtain ⟨rfl, ht, hu⟩ := Balanced.of_build_red ht
          exact ⟨.black, n, ht, .red hu hp⟩
      | black =>
          obtain ⟨rfl, n', c₂, c₃, rfl, ht, hu⟩ := Balanced.of_build_black ht
          exact ⟨c₂, n', ht, .black hu hp⟩

/-- The root may be painted black. -/
theorem Balanced.blacken {t : ColorTree κ} {c : Color} {n : ℕ} (h : Balanced t c n) :
    ∃ m, Balanced t.blacken .black m := by
  cases h with
  | leaf => exact ⟨0, .leaf⟩
  | red hl hr => exact ⟨_, .black hl hr⟩
  | black hl hr => exact ⟨_, .black hl hr⟩

/-- Painting a black root black changes nothing. -/
theorem Balanced.blacken_eq {t : ColorTree κ} {n : ℕ} (h : Balanced t .black n) : t.blacken = t := by
  cases h <;> rfl

/-! ### Insertion repair

The focus is a red node `z`, its parent `P` is red as well, the grandparent `G` is black. -/

/-- Case 1, red uncle: parent and uncle become black, and the grandparent is the next red focus. -/
theorem insert_recolor {d e : Side} {P G U : κ} {z s ul ur : ColorTree κ} {p : Path κ} {n : ℕ}
    (hz : Balanced z .red n)
    (hp : PathBalanced (⟨d, .red, P, s⟩ :: ⟨e, .black, G, .node .red ul U ur⟩ :: p) .black n) :
    Balanced (e.build .red (d.build .black z P s) G (.node .black ul U ur)) .red (n + 1) ∧
      PathBalanced p .black (n + 1) := by
  obtain ⟨-, hs, hp⟩ := hp.of_red
  obtain ⟨⟨c, hu⟩, hp⟩ := hp.of_black
  cases hu with
  | red hl hr => exact ⟨.build_red (.build_black hz hs) (.black hl hr), hp⟩

/-- Case 3, black uncle and `z` on the outside: the parent becomes the black root of the focus. -/
theorem insert_rotate {d : Side} {P G : κ} {z s u : ColorTree κ} {p : Path κ} {n : ℕ}
    (hz : Balanced z .red n) (hu : Balanced u .black n)
    (hp : PathBalanced (⟨d, .red, P, s⟩ :: ⟨d, .black, G, u⟩ :: p) .black n) :
    Balanced (d.build .black z P (d.build .red s G u)) .black (n + 1) ∧
      PathBalanced p .black (n + 1) := by
  obtain ⟨-, hs, hp⟩ := hp.of_red
  exact ⟨.build_black hz (.build_red hs hu), hp.of_black.2⟩

/-- Case 2, black uncle and `z` on the inside: rotating the parent puts `z` in its place and the
parent on the outside, red. -/
theorem insert_rotate_inner {d : Side} {P G Z : κ} {a b s u : ColorTree κ} {p : Path κ} {n : ℕ}
    (hz : Balanced (d.build .red a Z b) .red n)
    (hp : PathBalanced (⟨d.other, .red, P, s⟩ :: ⟨d, .black, G, u⟩ :: p) .black n) :
    Balanced (d.build .red s P a) .red n ∧
      PathBalanced (⟨d, .red, Z, b⟩ :: ⟨d, .black, G, u⟩ :: p) .black n := by
  obtain ⟨-, ha, hb⟩ := hz.of_build_red
  obtain ⟨-, hs, hp⟩ := hp.of_red
  exact ⟨.build_red hs ha, .red hb hp⟩

/-! ### Deletion repair

The focus lacks one black node: its black height is one less than its hole asks for. It is black, or
red with black height right once it is painted black. -/

/-- The focus of the deletion repair: the hole asks for black height `n + 1`, the focus is black of
height `n` or becomes one of height `n + 1` when painted black. -/
def Deficient (t : ColorTree κ) (p : Path κ) : Prop :=
  ∃ n, PathBalanced p .black (n + 1) ∧
    (Balanced t .black n ∨ (∃ l k r, t = .node .red l k r) ∧ Balanced t.blacken .black (n + 1))

/-- A balanced tree below a hole that asks for one black node more. -/
theorem Deficient.of_balanced {t : ColorTree κ} {p : Path κ} {c : Color} {n : ℕ} (ht : Balanced t c n)
    (hp : PathBalanced p .black (n + 1)) : Deficient t p := by
  refine ⟨n, hp, ?_⟩
  cases ht with
  | leaf => exact .inl .leaf
  | red hl hr => exact .inr ⟨⟨_, _, _, rfl⟩, .black hl hr⟩
  | black hl hr => exact .inl (.black hl hr)

/-- At the root the repair ends by painting the focus black. -/
theorem Deficient.blacken_root {t : ColorTree κ} (h : Deficient t []) :
    ∃ m, Balanced t.blacken .black m := by
  obtain ⟨n, -, ht | ⟨-, ht⟩⟩ := h
  exacts [ht.blacken, ⟨_, ht⟩]

/-- A red focus ends the repair by being painted black. -/
theorem Deficient.blacken_red {l r : ColorTree κ} {k : κ} {p : Path κ}
    (h : Deficient (.node .red l k r) p) :
    ∃ m, Balanced (plug p (.node .black l k r)) .black m := by
  obtain ⟨n, hp, ht | ⟨-, ht⟩⟩ := h
  · nomatch ht
  · exact ht.plug hp

/-- A black focus is balanced, and so are its sibling and its path; the sibling is a node. -/
theorem Deficient.black_cases {t : ColorTree κ} {d : Side} {c : Color} {P : κ} {w : ColorTree κ} {p : Path κ}
    (h : Deficient t (⟨d, c, P, w⟩ :: p)) (hblack : ∀ l k r, t ≠ .node .red l k r) :
    ∃ n cw, Balanced t .black n ∧ Balanced w cw (n + 1) ∧
      PathBalanced (⟨d, c, P, w⟩ :: p) .black (n + 1) := by
  obtain ⟨n, hp, ht | ⟨⟨l, k, r, rfl⟩, -⟩⟩ := h
  · cases c with
    | red => exact ⟨n, .black, ht, hp.of_red.2.1, hp⟩
    | black =>
        obtain ⟨⟨cw, hw⟩, -⟩ := hp.of_black
        exact ⟨n, cw, ht, hw, hp⟩
  · exact absurd rfl (hblack l k r)

/-- Case 1, red sibling `W`: after the rotation the focus has the black sibling `a`. -/
theorem delete_rotate_sibling {a b : ColorTree κ} {d : Side} {c : Color} {P W : κ} {p : Path κ}
    {n : ℕ} (hp : PathBalanced (⟨d, c, P, d.build .red a W b⟩ :: p) .black (n + 1)) :
    c = .black ∧ Balanced a .black (n + 1) ∧
      PathBalanced (⟨d, .red, P, a⟩ :: ⟨d, .black, W, b⟩ :: p) .black (n + 1) := by
  cases c with
  | red => exact absurd hp.of_red.2.1.of_build_red.1 (by simp)
  | black =>
      obtain ⟨⟨c', hw⟩, hp⟩ := hp.of_black
      obtain ⟨-, ha, hb⟩ := hw.of_build_red
      exact ⟨rfl, ha, .red ha (.black hb hp)⟩

/-- Case 2, black sibling with black children: the sibling becomes red and the parent lacks the
black node now. -/
theorem delete_recolor {t a b : ColorTree κ} {d : Side} {c : Color} {P W : κ} {p : Path κ} {n : ℕ}
    (ht : Balanced t .black n) (ha : Balanced a .black n) (hb : Balanced b .black n)
    (hp : PathBalanced (⟨d, c, P, d.build .black a W b⟩ :: p) .black (n + 1)) :
    Deficient (d.build c t P (d.build .red a W b)) p := by
  have hw : Balanced (d.build .red a W b) .red n := .build_red ha hb
  cases c with
  | red =>
      refine ⟨n, hp.of_red.2.2.toBlack, .inr ⟨?_, ?_⟩⟩
      · cases d
        exacts [⟨_, _, _, rfl⟩, ⟨_, _, _, rfl⟩]
      · rw [Side.blacken_build]
        exact .build_black ht hw
  | black => exact ⟨n + 1, hp.of_black.2, .inl (.build_black ht hw)⟩

/-- Case 3, black sibling `W` with a red near child `N` and a black far child: after the rotation
the sibling is `N` with the red far child `W`. -/
theorem delete_rotate_near {a b e : ColorTree κ} {d : Side} {c : Color} {P W N : κ} {p : Path κ} {n : ℕ}
    (hn : Balanced (d.build .red a N b) .red n) (he : Balanced e .black n)
    (hp : PathBalanced (⟨d, c, P, d.build .black (d.build .red a N b) W e⟩ :: p) .black (n + 1)) :
    PathBalanced (⟨d, c, P, d.build .black a N (d.build .red b W e)⟩ :: p) .black (n + 1) := by
  obtain ⟨-, ha, hb⟩ := hn.of_build_red
  have hw : Balanced (d.build .black a N (d.build .red b W e)) .black (n + 1) :=
    .build_black ha (.build_red hb he)
  cases c with
  | red => exact .red hw hp.of_red.2.2
  | black => exact .black hw hp.of_black.2

/-- Case 4, black sibling `W` with a red far child: after the rotation nothing is missing. -/
theorem delete_rotate {t a l r : ColorTree κ} {d : Side} {c ca : Color} {P W F : κ} {p : Path κ} {n : ℕ}
    (ht : Balanced t .black n) (ha : Balanced a ca n) (hf : Balanced (.node .red l F r) .red n)
    (hp : PathBalanced (⟨d, c, P, d.build .black a W (.node .red l F r)⟩ :: p) .black (n + 1)) :
    ∃ m, Balanced (plug p (d.build c (d.build .black t P a) W (.node .black l F r))) .black m := by
  have hl : Balanced (d.build .black t P a) .black (n + 1) := .build_black ht ha
  have hr : Balanced (.node .black l F r) .black (n + 1) := by
    cases hf with
    | red hl hr => exact .black hl hr
  cases c with
  | red => exact (Balanced.build_red hl hr).plug hp.of_red.2.2
  | black => exact (Balanced.build_black hl hr).plug hp.of_black.2

/-- Taking out a node with at most one subtree: fine for a red one, one black node short for a black
one. -/
theorem Balanced.take_out {p : Path κ} {d : Side} {c : Color} {k : κ} {u : ColorTree κ} {m : ℕ}
    (h : Balanced (RedBlackTree.plug p (d.build c .leaf k u)) .black m) :
    (c = .red → ∃ m, Balanced (RedBlackTree.plug p u) .black m) ∧ (c = .black → Deficient u p) := by
  obtain ⟨c', n, ht, hp⟩ := h.of_plug
  cases c with
  | red =>
      obtain ⟨rfl, -, hu⟩ := ht.of_build_red
      exact ⟨fun _ => hu.plug hp.toBlack, by simp⟩
  | black =>
      obtain ⟨rfl, n, -, c₂, rfl, -, hu⟩ := ht.of_build_black
      exact ⟨by simp, fun _ => Deficient.of_balanced hu hp⟩

/-- Labels do not matter for the balance. -/
theorem Balanced.relabel {p : Path κ} {c c' : Color} {l r : ColorTree κ} {k : κ} {n : ℕ} (k' : κ)
    (h : Balanced (RedBlackTree.plug p (.node c l k r)) c' n) :
    Balanced (RedBlackTree.plug p (.node c l k' r)) c' n := by
  have hmono : ∀ (p : Path κ) (t u : ColorTree κ), (∀ c n, Balanced t c n → Balanced u c n) →
      ∀ c n, Balanced (RedBlackTree.plug p t) c n → Balanced (RedBlackTree.plug p u) c n := by
    intro p
    induction p with
    | nil => exact fun t u htu => htu
    | cons f p ih =>
        intro t u htu
        refine ih _ _ fun c n ht => ?_
        obtain ⟨d, cf, k, sib⟩ := f
        cases cf with
        | red =>
            obtain ⟨rfl, ht, hs⟩ := Balanced.of_build_red ht
            exact .build_red (htu _ _ ht) hs
        | black =>
            obtain ⟨rfl, n, c₁, c₂, rfl, ht, hs⟩ := Balanced.of_build_black ht
            exact .build_black (htu _ _ ht) hs
  refine hmono p _ _ (fun c' n h => ?_) c' n h
  cases h with
  | red hl hr => exact .red hl hr
  | black hl hr => exact .black hl hr

/-! ### Height -/

/-- A tree of black height `n` has at least `2 ^ n - 1` nodes. -/
theorem Balanced.two_pow_le {t : ColorTree κ} {c : Color} {n : ℕ} (h : Balanced t c n) :
    2 ^ n ≤ t.toList.length + 1 := by
  induction h with
  | leaf => simp
  | red _ _ ihl ihr =>
      simp only [ColorTree.toList_node, List.length_append, List.length_cons]
      omega
  | black _ _ ihl ihr =>
      simp only [ColorTree.toList_node, List.length_append, List.length_cons, Nat.pow_succ]
      omega

/-- The black height is at most the logarithm of the number of nodes. -/
theorem Balanced.le_log {t : ColorTree κ} {c : Color} {n : ℕ} (h : Balanced t c n) :
    n ≤ Nat.log 2 (t.toList.length + 1) :=
  Nat.le_log_of_pow_le (by omega) h.two_pow_le

end RedBlackTree

end Microkernel
