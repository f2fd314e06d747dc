import Microkernel.Vma.RbTreeLayout

/-! # Insertion repair of the red-black tree

`insert_fixup` moves a red focus upwards until its parent is black. One round recolours a red uncle
away or rotates once or twice; it keeps the labels of the tree and shortens the path to the root.

* **`insertFixupStep_spec`** — one round. The recolouring needs the uncle, and the uncle may be the
  sentinel, which counts as black.
* **`insertFixup_spec`** — the loop, by the length of the path, and the root painted black behind it: the
  labels are those from before, in their order, and the tree is a red-black tree again.
-/

namespace Microkernel.Vma

open RedBlackTree

/-- Testing the left child decides the side. -/
theorem ite_child_left {α : Type*} {child : Side → Ref} {x : Ref} (d : Side) (hx : child d = x)
    (hne : child d.other ≠ x) (F : Side → α) :
    (if x = child .left then F .left else F .right) = F d := by
  cases d with
  | left => exact if_pos hx.symm
  | right => exact if_neg fun h => hne h.symm

namespace RbState.Tracks

variable {s₀ s : RbState} {L : List Cell} {p q : Path Cell} {z sib U l r : ColorTree Cell} {d e : Side}
  {c c' cz : Color} {k P G : Cell}

/-- The parent and the grandparent of a node two frames down. -/
theorem parent_parent
    (h : s₀.Tracks s L (plug q (d.build c (e.build c' (.node cz l k r) P sib) G U))) :
    s.parent k.ref = P.ref ∧ s.parent P.ref = G.ref := by
  have hP : s₀.Tracks s L (plug (⟨d, c, G, U⟩ :: q) (e.build c' (.node cz l k r) P sib)) := h
  have hz : s₀.Tracks s L
      (plug (⟨e, c', P, sib⟩ :: ⟨d, c, G, U⟩ :: q) (Side.left.build cz l k r)) := h
  exact ⟨hz.parent_focus, hP.parent_focus⟩

/-- The round is made on the side of the parent. -/
theorem insertFixupStep_eq
    (h : s₀.Tracks s L (plug q (d.build c (e.build c' (.node cz l k r) P sib) G U))) :
    insertFixupStep k.ref s = insertFixupSide d k.ref s := by
  obtain ⟨hz, hP⟩ := h.parent_parent
  have hchild : s.child d G.ref = P.ref := by rw [h.child_focus, treeRef_build]
  have hne : s.child d.other G.ref ≠ P.ref := by
    rw [h.child_other_focus, ← treeRef_build e c' (.node cz l k r) P sib]
    exact (h.treeRef_ne (.inl (by cases e <;> simp [Side.build]))).symm
  rw [insertFixupStep, hz, hP]
  exact ite_child_left d hchild hne fun d => insertFixupSide d k.ref s

/-- Case 1: a red uncle. -/
theorem insertFixupSide_red {ul ur : ColorTree Cell} {uk : Cell}
    (h : s₀.Tracks s L
      (plug q (d.build .black (e.build .red (.node .red l k r) P sib) G (.node .red ul uk ur)))) :
    (insertFixupSide d k.ref s).1 = G.ref ∧
      s₀.Tracks (insertFixupSide d k.ref s).2 L
        (plug q (d.build .red (e.build .black (.node .red l k r) P sib) G
          (.node .black ul uk ur))) := by
  obtain ⟨hz, hP⟩ := h.parent_parent
  have huncle : s.child d.other G.ref = uk.ref := h.child_other_focus
  have hred : s.color uk.ref = .red := by
    have hU : s₀.Tracks s L (plug (⟨d.other, .black, G, e.build .red (.node .red l k r) P sib⟩ :: q)
        (.node .red ul uk ur)) := by
      rw [plug_cons, Frame.fill, Side.build_other]
      exact h
    exact hU.color_focus
  -- the parent becomes black
  have h₁ : s₀.Tracks (s.setColor P.ref .black) L
      (plug (⟨d, .black, G, .node .red ul uk ur⟩ :: q) (e.build .black (.node .red l k r) P sib)) :=
    setColor (p := ⟨d, .black, G, .node .red ul uk ur⟩ :: q) h .black
  -- the uncle becomes black
  have h₂ : s₀.Tracks ((s.setColor P.ref .black).setColor uk.ref .black) L
      (plug q (d.build .black (e.build .black (.node .red l k r) P sib) G
        (.node .black ul uk ur))) := by
    have hU : s₀.Tracks (s.setColor P.ref .black) L
        (plug (⟨d.other, .black, G, e.build .black (.node .red l k r) P sib⟩ :: q)
          (Side.left.build .red ul uk ur)) := by
      rw [plug_cons, Frame.fill, Side.build_other]
      exact h₁
    have hU := hU.setColor .black
    rw [plug_cons, Frame.fill, Side.build_other] at hU
    exact hU
  -- the grandparent becomes red
  have h₃ := h₂.setColor .red
  obtain ⟨hz₂, hP₂⟩ := h₂.parent_parent
  obtain ⟨hz₃, hP₃⟩ := h₃.parent_parent
  simp only [insertFixupSide, hz, hP, huncle, hred, if_true, hz₂, hP₂, hz₃, hP₃]
  exact ⟨trivial, h₃⟩

/-- Case 3: a black uncle and `z` on the outside. -/
theorem insertFixup_outer (z : Ref) (hzk : z = k.ref)
    (h : s₀.Tracks s L (plug q (d.build .black (d.build .red (.node .red l k r) P sib) G U))) :
    let s₁ := s.setColor (s.parent z) .black
    let s₂ := s₁.setColor (s₁.parent (s₁.parent z)) .red
    s₀.Tracks (rotateSide d.other (s₂.parent (s₂.parent z)) s₂) L
      (plug q (d.build .black (.node .red l k r) P (d.build .red sib G U))) := by
  subst hzk
  intro s₁ s₂
  obtain ⟨hz, -⟩ := h.parent_parent
  have h₁ : s₀.Tracks s₁ L
      (plug (⟨d, .black, G, U⟩ :: q) (d.build .black (.node .red l k r) P sib)) := by
    simp only [s₁, hz]
    exact setColor (p := ⟨d, .black, G, U⟩ :: q) h .black
  obtain ⟨hz₁, hP₁⟩ := parent_parent h₁
  have h₂ : s₀.Tracks s₂ L
      (plug q (d.build .red (d.build .black (.node .red l k r) P sib) G U)) := by
    simp only [s₂, hz₁, hP₁]
    exact setColor (p := q) h₁ .red
  obtain ⟨hz₂, hP₂⟩ := h₂.parent_parent
  have h₃ : s₀.Tracks s₂ L
      (plug q (d.other.build .red U G (d.other.build .black sib P (.node .red l k r)))) := by
    rw [Side.build_other, Side.build_other]
    exact h₂
  have h₃ := h₃.rotate
  rw [Side.build_other, Side.build_other] at h₃
  rw [rotateSide_eq, hz₂, hP₂]
  exact h₃

/-- Cases 2 and 3: a black uncle. The new focus is a red child of a black node. -/
theorem insertFixupSide_black (hU : treeColor U = .black)
    (h : s₀.Tracks s L (plug q (d.build .black (e.build .red (.node .red l k r) P sib) G U))) :
    (e = d ∧ (insertFixupSide d k.ref s).1 = k.ref ∧
      s₀.Tracks (insertFixupSide d k.ref s).2 L
        (plug q (d.build .black (.node .red l k r) P (d.build .red sib G U)))) ∨
    e = d.other ∧ ∃ a b, ColorTree.node .red l k r = d.build .red a k b ∧
      (insertFixupSide d k.ref s).1 = P.ref ∧
      s₀.Tracks (insertFixupSide d k.ref s).2 L
        (plug q (d.build .black (d.build .red sib P a) k (d.build .red b G U))) := by
  obtain ⟨hz, hP⟩ := h.parent_parent
  have huncle : s.child d.other G.ref = treeRef U := h.child_other_focus
  have hblack : s.color (treeRef U) ≠ .red := by
    have hU' : s₀.Tracks s L
        (plug (⟨d.other, .black, G, e.build .red (.node .red l k r) P sib⟩ :: q) U) := by
      rw [plug_cons, Frame.fill, Side.build_other]
      exact h
    rw [hU'.color_focus, hU]
    decide
  have hPfocus : s₀.Tracks s L
      (plug (⟨d, .black, G, U⟩ :: q) (e.build .red (.node .red l k r) P sib)) := h
  simp only [insertFixupSide, hz, hP, huncle, hblack, if_false]
  -- an inner child (`e ≠ d`) is first turned into an outer one
  by_cases hed : e = d
  · subst hed
    have hne : k.ref ≠ s.child e.other P.ref := by
      rw [hPfocus.child_other_focus]
      exact hPfocus.treeRef_ne (.inl (by simp))
    rw [if_neg hne]
    exact .inl ⟨rfl, rfl, insertFixup_outer k.ref rfl h⟩
  · have hed : e = d.other := by
      cases d <;> cases e <;> first | rfl | exact absurd rfl hed
    subst hed
    have heq : k.ref = s.child d.other P.ref := by rw [hPfocus.child_focus, treeRef_node]
    rw [if_pos heq]
    obtain ⟨a, b, hab⟩ := ColorTree.node_eq_build d .red l k r
    refine .inr ⟨rfl, a, b, hab, ?_⟩
    have h' : s₀.Tracks s L
        (plug (⟨d, .black, G, U⟩ :: q) (d.build .red sib P (d.build .red a k b))) := by
      rw [← hab, ← Side.build_other]
      exact h
    have hrot := h'.rotate
    obtain ⟨l', r', hlr⟩ : ∃ l' r', d.build .red sib P a = .node .red l' P r' := by
      cases d
      exacts [⟨_, _, rfl⟩, ⟨_, _, rfl⟩]
    rw [hlr] at hrot ⊢
    rw [rotateSide_eq]
    exact ⟨rfl, insertFixup_outer P.ref rfl hrot⟩

end RbState.Tracks

/-- **One round** of the insertion repair: the focus stays red and moves at least one frame up. -/
theorem insertFixupStep_spec {s₀ s : RbState} {L : List Cell} {p : Path Cell} {l r sib : ColorTree Cell}
    {e : Side} {k P : Cell} {m : ℕ}
    (h : s₀.Tracks s L (plug (⟨e, .red, P, sib⟩ :: p) (.node .red l k r)))
    (hz : Balanced (.node .red l k r) .red m)
    (hp : PathBalanced (⟨e, .red, P, sib⟩ :: p) .black m) :
    ∃ q l' k' r' m', (insertFixupStep k.ref s).1 = k'.ref ∧
      s₀.Tracks (insertFixupStep k.ref s).2 L (plug q (.node .red l' k' r')) ∧
      Balanced (.node .red l' k' r') .red m' ∧ PathBalanced q .black m' ∧ q.length ≤ p.length := by
  obtain ⟨d, G, U, q, rfl⟩ := hp.of_red.2.2.exists_black
  have hG : s₀.Tracks s L
      (plug q (d.build .black (e.build .red (.node .red l k r) P sib) G U)) := h
  rw [hG.insertFixupStep_eq]
  obtain ⟨⟨c, hU⟩, -⟩ := hp.of_red.2.2.of_black
  cases c with
  | red =>
      obtain ⟨ul, uk, ur, rfl⟩ := hU.exists_build_red .left
      obtain ⟨hfst, hsnd⟩ := hG.insertFixupSide_red
      obtain ⟨hbal, hpath⟩ := RedBlackTree.insert_recolor hz hp
      obtain ⟨l', r', hlr⟩ : ∃ l' r', d.build .red (e.build .black (.node .red l k r) P sib) G
          (.node .black ul uk ur) = .node .red l' G r' := by
        cases d
        exacts [⟨_, _, rfl⟩, ⟨_, _, rfl⟩]
      rw [hlr] at hsnd hbal
      exact ⟨q, l', G, r', m + 1, hfst, hsnd, hbal, hpath, by simp⟩
  | black =>
      rcases hG.insertFixupSide_black (treeColor_of_balanced hU) with
        ⟨rfl, hfst, hsnd⟩ | ⟨rfl, a, b, hab, hfst, hsnd⟩
      · obtain ⟨hbal, hpath⟩ := RedBlackTree.insert_rotate hz hU hp
        obtain ⟨-, c₂, -, hsub⟩ := hbal.of_build_black_succ
        refine ⟨⟨e, .black, P, e.build .red sib G U⟩ :: q, l, k, r, m, hfst, hsnd, hz, ?_, by simp⟩
        exact .black hsub hpath
      · rw [hab] at hz
        obtain ⟨hinner, hp'⟩ := RedBlackTree.insert_rotate_inner hz hp
        obtain ⟨hbal, hpath⟩ := RedBlackTree.insert_rotate hinner hU hp'
        obtain ⟨-, c₂, -, hsub⟩ := hbal.of_build_black_succ
        obtain ⟨l', r', hlr⟩ : ∃ l' r', d.build .red sib P a = .node .red l' P r' := by
          cases d
          exacts [⟨_, _, rfl⟩, ⟨_, _, rfl⟩]
        rw [hlr] at hsnd hinner
        refine ⟨⟨d, .black, k, d.build .red b G U⟩ :: q, l', P, r', m, hfst, hsnd, hinner, ?_,
          by simp⟩
        exact .black hsub hpath

/-- The repair ends below the root or a black parent by painting the root black. -/
theorem RbState.Tracks.blackenRoot {s₀ s : RbState} {L : List Cell} {T : ColorTree Cell}
    (h : s₀.Tracks s L T) (hT : T ≠ .leaf) : s₀.Tracks (s.setColor s.root .black) L T.blacken := by
  cases T with
  | leaf => exact absurd rfl hT
  | node c l k r =>
      rw [h.root]
      exact setColor (p := []) (d := .left) h .black

/-- A node somewhere leaves no empty tree. -/
theorem plug_node_ne_leaf (p : Path Cell) (c : Color) (l : ColorTree Cell) (k : Cell) (r : ColorTree Cell) :
    plug p (.node c l k r) ≠ .leaf := by
  intro h
  have := congrArg ColorTree.toList h
  rw [toList_plug] at this
  simp at this

/-- **`insert_fixup`** ends, keeps the labels and leaves a red-black tree with a black root. -/
theorem insertFixup_spec {s₀ : RbState} {L : List Cell} (n : ℕ) :
    ∀ {s : RbState} {p : Path Cell} {l r : ColorTree Cell} {k : Cell} {m : ℕ},
      s₀.Tracks s L (plug p (.node .red l k r)) → Balanced (.node .red l k r) .red m →
      PathBalanced p .black m → p.length < n →
      ∃ s' T, insertFixup n k.ref s = some s' ∧ s₀.Tracks s' L T ∧ ∃ m', Balanced T .black m' := by
  induction n with
  | zero => intro s p l r k m _ _ _ hn; omega
  | succ n ih =>
      intro s p l r k m h hz hp hn
      have hpar : s.parent k.ref = parentOf p := RbState.Tracks.parent_focus (d := .left) h
      rw [insertFixup, hpar]
      match p, hp with
      | [], _ =>
          rw [if_neg (by rw [parentOf, RbState.color, h.nilBlack]; decide)]
          exact ⟨_, _, rfl, h.blackenRoot (by simp), hz.blacken⟩
      | ⟨e, .black, P, sib⟩ :: q, hp =>
          have hP : s₀.Tracks s L (plug q (e.build .black (.node .red l k r) P sib)) := h
          have hcolor : s.color P.ref = .black := by
            rw [← treeRef_build, hP.color_focus, treeColor_build]
          obtain ⟨⟨c, hsib⟩, hq⟩ := hp.of_black
          obtain ⟨m', hbal⟩ := hz.plug (.black hsib hq)
          rw [parentOf, if_neg (by rw [hcolor]; decide)]
          refine ⟨_, _, rfl, h.blackenRoot (plug_node_ne_leaf _ _ _ _ _), m', ?_⟩
          rwa [hbal.blacken_eq]
      | ⟨e, .red, P, sib⟩ :: q, hp =>
          have hP : s₀.Tracks s L (plug q (e.build .red (.node .red l k r) P sib)) := h
          have hcolor : s.color P.ref = .red := by
            rw [← treeRef_build, hP.color_focus, treeColor_build]
          obtain ⟨q', l', k', r', m', hfst, hsnd, hz', hp', hlen⟩ := insertFixupStep_spec h hz hp
          simp only [List.length_cons] at hn
          rw [parentOf, if_pos hcolor]
          simp only [hfst]
          exact ih hsnd hz' hp' (by omega)

end Microkernel.Vma
