import Microkernel.Vma.RbTreeInsert

/-! # Deletion repair of the red-black tree

`delete_fixup` moves a focus that lacks one black node upwards. The focus may be a leaf: then the
shared sentinel stands for it, and the sentinel's parent field, which `transplant` has set, leads to
the parent. A round either makes the path to the root shorter or leaves a state where the loop stops
and painting the focus black gives a red-black tree.

* **`Repaired`** — the round was the last one: painting the focus black gives a red-black tree.
* **`deleteFixup_spec`** — the loop, by the length of the path. The cases of a round are those of the
  library on red-black trees, each with the writes that the source makes for it.
-/

namespace Microkernel.Vma

open RedBlackTree

/-- Painting the sentinel black changes nothing when it is black. -/
theorem RbState.setColor_black_eq {s : RbState} {x : Ref} (h : (s.mem x).color = .black) :
    s.setColor x .black = s := by
  have hx : ({ s.mem x with color := .black } : RbNode) = s.mem x := by rw [← h]
  rw [setColor, modify, hx, Function.update_eq_self]

/-- The root of a plugged tree is on the path. -/
theorem treeRef_plug_cons (f : Frame Cell) (p : Path Cell) (t : ColorTree Cell) :
    ∃ i ∈ pathIdxs (f :: p), treeRef (plug (f :: p) t) = .pool i := by
  induction p generalizing f t with
  | nil => exact ⟨f.key.idx, mem_pathIdxs_cons.mpr (.inl rfl), treeRef_fill ..⟩
  | cons g p ih =>
      obtain ⟨i, hi, h⟩ := ih g (f.fill t)
      exact ⟨i, mem_pathIdxs_cons.mpr (.inr (.inr hi)), h⟩

namespace RbState.Tracks

variable {s₀ s : RbState} {L : List Cell} {p q : Path Cell} {t a b l r : ColorTree Cell} {d : Side}
  {c : Color} {k P W N F : Cell} {n : ℕ}

/-- A focus below the root is not the root. -/
theorem treeRef_ne_root {f : Frame Cell} (h : s₀.Tracks s L (plug (f :: p) t)) :
    treeRef t ≠ s.root := by
  obtain ⟨i, hi, hroot⟩ := treeRef_plug_cons f p t
  rw [h.root, hroot]
  exact treeRef_ne_pool fun hit => h.nodup_focus.2.2 i hit hi

/-- The parent field of a focus, when a leaf's is what the sentinel holds. -/
theorem parent_treeRef (h : s₀.Tracks s L (plug p t))
    (hnil : t = .leaf → s₀.parent .nil = parentOf p) : s.parent (treeRef t) = parentOf p := by
  cases t with
  | leaf =>
      rw [← hnil rfl, treeRef_leaf, RbState.parent, RbState.parent, h.outside .nil (by simp)]
  | node c l k r => exact parent_focus (d := .left) h

/-- Recolouring the root of the focus's sibling. -/
theorem setColor_sibling {c' : Color}
    (h : s₀.Tracks s L (plug q (d.build c t P (d.build c' a W b)))) (c'' : Color) :
    s₀.Tracks (s.setColor W.ref c'') L (plug q (d.build c t P (d.build c'' a W b))) := by
  have hW : s₀.Tracks s L (plug (⟨d.other, c, P, t⟩ :: q) (d.build c' a W b)) := by
    rw [plug_cons, Frame.fill, Side.build_other]
    exact h
  have hW := hW.setColor c''
  rw [plug_cons, Frame.fill, Side.build_other] at hW
  exact hW

/-- The loop stops at `r`, and painting its focus black gives a red-black tree. -/
def Repaired (s₀ : RbState) (L : List Cell) (r : Ref × RbState) : Prop :=
  ¬ (r.1 ≠ r.2.root ∧ r.2.color r.1 = .black) ∧
    ∃ T m, s₀.Tracks (r.2.setColor r.1 .black) L T ∧ Balanced T .black m

/-- The loop stops at the root. -/
theorem repaired_root {T : ColorTree Cell} {m : ℕ} (h : s₀.Tracks s L T) (hT : Balanced T .black m) :
    Repaired s₀ L (s.root, s) := by
  refine ⟨by simp, T, m, ?_, hT⟩
  have hblack : s.color s.root = .black := by
    rw [h.root, color_focus (p := []) h, treeColor_of_balanced hT]
  rwa [setColor_black_eq hblack]

/-- The loop stops at a red focus. -/
theorem repaired_red (h : s₀.Tracks s L (plug p (.node .red l k r)))
    (hdef : Deficient (.node .red l k r) p) : Repaired s₀ L (k.ref, s) := by
  obtain ⟨m, hm⟩ := hdef.blacken_red
  have hcolor : s.color k.ref = .red := h.color_focus
  refine ⟨by simp [hcolor], _, m, setColor (d := .left) h .black, hm⟩

/-- Case 4: a black sibling with a red far child. -/
theorem deleteFixup_far (x w : Ref) (hx : s.parent x = P.ref) (hw : w = W.ref)
    (hxt : x = treeRef t) (hnil : t = .leaf → s₀.parent .nil = P.ref)
    (h : s₀.Tracks s L (plug q (d.build c t P (d.build .black a W (.node .red l F r))))) :
    let s₁ := s.setColor w (s.color (s.parent x))
    let s₂ := s₁.setColor (s₁.parent x) .black
    let s₃ := s₂.setColor (s₂.child d.other w) .black
    s₀.Tracks (rotateSide d (s₃.parent x) s₃) L
      (plug q (d.build c (d.build .black t P a) W (.node .black l F r))) := by
  subst hw hxt
  intro s₁ s₂ s₃
  have hpar : ∀ {s' : RbState} {c' : Color} {u : ColorTree Cell},
      s₀.Tracks s' L (plug q (d.build c' t P u)) → s'.parent (treeRef t) = P.ref := by
    intro s' c' u h'
    exact parent_treeRef (p := ⟨d, c', P, u⟩ :: q) h' hnil
  have hcP : s.color P.ref = c := by rw [← treeRef_build, h.color_focus, treeColor_build]
  have h₁ : s₀.Tracks s₁ L (plug q (d.build c t P (d.build c a W (.node .red l F r)))) := by
    simp only [s₁, hx, hcP]
    exact h.setColor_sibling c
  have h₂ : s₀.Tracks s₂ L (plug q (d.build .black t P (d.build c a W (.node .red l F r)))) := by
    simp only [s₂, hpar h₁]
    exact h₁.setColor .black
  have hW₂ : s₀.Tracks s₂ L
      (plug (⟨d.other, .black, P, t⟩ :: q) (d.build c a W (.node .red l F r))) := by
    rw [plug_cons, Frame.fill, Side.build_other]
    exact h₂
  have h₃ : s₀.Tracks s₃ L (plug q (d.build .black t P (d.build c a W (.node .black l F r)))) := by
    have hF : s₀.Tracks s₂ L
        (plug (⟨d.other, c, W, a⟩ :: ⟨d.other, .black, P, t⟩ :: q)
          (Side.left.build .red l F r)) := by
      rw [plug_cons, Frame.fill, Side.build_other]
      exact hW₂
    have hF := hF.setColor .black
    rw [plug_cons, Frame.fill, Side.build_other, plug_cons, Frame.fill, Side.build_other] at hF
    simp only [s₃, hW₂.child_other_focus]
    exact hF
  rw [hpar h₃, rotateSide_eq]
  exact h₃.rotate

/-- Case 3: a black sibling with a red near child becomes one with a red far child. -/
theorem deleteFixup_near {e : ColorTree Cell}
    (h : s₀.Tracks s L (plug q (d.build c t P (d.build .black (d.build .red a N b) W e)))) :
    s₀.Tracks (rotateSide d.other W.ref ((s.setColor N.ref .black).setColor W.ref .red)) L
      (plug q (d.build c t P (d.build .black a N (d.build .red b W e)))) := by
  have h₁ : s₀.Tracks (s.setColor N.ref .black) L
      (plug q (d.build c t P (d.build .black (d.build .black a N b) W e))) := by
    have hW : s₀.Tracks s L
        (plug (⟨d.other, c, P, t⟩ :: q) (d.build .black (d.build .red a N b) W e)) := by
      rw [plug_cons, Frame.fill, Side.build_other]
      exact h
    have hN := setColor (p := ⟨d, .black, W, e⟩ :: ⟨d.other, c, P, t⟩ :: q) hW .black
    rw [plug_cons, Frame.fill, plug_cons, Frame.fill, Side.build_other] at hN
    exact hN
  have h₂ : s₀.Tracks ((s.setColor N.ref .black).setColor W.ref .red) L
      (plug (⟨d.other, c, P, t⟩ :: q) (d.other.build .red e W (d.other.build .black b N a))) := by
    rw [plug_cons, Frame.fill, Side.build_other, Side.build_other, Side.build_other]
    exact h₁.setColor_sibling .red
  have h₃ := h₂.rotate
  rw [plug_cons, Frame.fill, Side.build_other, Side.build_other, Side.build_other] at h₃
  rw [rotateSide_eq]
  exact h₃

/-- A black sibling: cases 2 to 4. Either nothing is missing any more, or the sibling is red now and
the parent lacks the black node. -/
theorem deleteFixupSibling_spec (hnil : t = .leaf → s₀.parent .nil = P.ref)
    (h : s₀.Tracks s L (plug q (d.build c t P (d.build .black a W b))))
    (ht : Balanced t .black n)
    (hp : PathBalanced (⟨d, c, P, d.build .black a W b⟩ :: q) .black (n + 1)) :
    Repaired s₀ L (deleteFixupSibling d (treeRef t) W.ref s) ∨
      (deleteFixupSibling d (treeRef t) W.ref s).1 = P.ref ∧
        s₀.Tracks (deleteFixupSibling d (treeRef t) W.ref s).2 L
          (plug q (d.build c t P (d.build .red a W b))) ∧
        Deficient (d.build c t P (d.build .red a W b)) q := by
  have hpar : s.parent (treeRef t) = P.ref :=
    parent_treeRef (p := ⟨d, c, P, d.build .black a W b⟩ :: q) h hnil
  have hW : s₀.Tracks s L (plug (⟨d.other, c, P, t⟩ :: q) (d.build .black a W b)) := by
    rw [plug_cons, Frame.fill, Side.build_other]
    exact h
  obtain ⟨ca, cb, ha, hb⟩ : ∃ ca cb, Balanced a ca n ∧ Balanced b cb n := by
    cases c with
    | red => exact hp.of_red.2.1.of_build_black_succ
    | black => exact hp.of_black.1.choose_spec.of_build_black_succ
  have hca : s.color (s.child d W.ref) = ca := by
    have ha' : s₀.Tracks s L (plug (⟨d, .black, W, b⟩ :: ⟨d.other, c, P, t⟩ :: q) a) := hW
    rw [hW.child_focus, ha'.color_focus, treeColor_of_balanced ha]
  have hcb : s.color (s.child d.other W.ref) = cb := by
    have hb' : s₀.Tracks s L (plug (⟨d.other, .black, W, a⟩ :: ⟨d.other, c, P, t⟩ :: q) b) := by
      rw [plug_cons, Frame.fill, Side.build_other]
      exact hW
    rw [hW.child_other_focus, hb'.color_focus, treeColor_of_balanced hb]
  -- case 4, which also ends case 3: the far child is red, and one rotation repairs the tree
  have hdone : ∀ {s' : RbState} {a' b' : ColorTree Cell} {W' : Cell} {ca' : Color},
      s₀.Tracks s' L (plug q (d.build c t P (d.build .black a' W' b'))) → Balanced a' ca' n →
      Balanced b' .red n →
      PathBalanced (⟨d, c, P, d.build .black a' W' b'⟩ :: q) .black (n + 1) →
      let s₁ := s'.setColor W'.ref (s'.color (s'.parent (treeRef t)))
      let s₂ := s₁.setColor (s₁.parent (treeRef t)) .black
      let s₃ := s₂.setColor (s₂.child d.other W'.ref) .black
      let s₄ := rotateSide d (s₃.parent (treeRef t)) s₃
      Repaired s₀ L (s₄.root, s₄) := by
    intro s' a' b' W' ca' h' ha' hb' hp'
    obtain ⟨l, F, r, rfl⟩ := hb'.exists_build_red .left
    obtain ⟨m, hm⟩ := RedBlackTree.delete_rotate ht ha' hb' hp'
    have hpar' : s'.parent (treeRef t) = P.ref :=
      parent_treeRef (p := ⟨d, c, P, d.build .black a' W' (Side.left.build .red l F r)⟩ :: q) h' hnil
    exact repaired_root (deleteFixup_far _ _ hpar' rfl rfl hnil h') hm
  rw [deleteFixupSibling, hca, hcb]
  -- case 2: both children of the sibling are black, and the deficit goes up
  by_cases hboth : ca = .black ∧ cb = .black
  · obtain ⟨rfl, rfl⟩ := hboth
    rw [if_pos ⟨rfl, rfl⟩]
    have h₁ := h.setColor_sibling .red
    refine .inr ⟨?_, h₁, RedBlackTree.delete_recolor ht ha hb hp⟩
    exact parent_treeRef (p := ⟨d, c, P, d.build .red a W b⟩ :: q) h₁ hnil
  · rw [if_neg hboth]
    left
    cases cb with
    | red => exact hdone h ha hb hp
    | black =>
        cases ca with
        | black => exact absurd ⟨rfl, rfl⟩ hboth
        | red =>
            -- case 3: the near child is red, and a rotation of the sibling makes it case 4
            obtain ⟨a₁, N, a₂, rfl⟩ := ha.exists_build_red d
            have h₁ := h.deleteFixup_near
            have hp₁ := RedBlackTree.delete_rotate_near ha hb hp
            obtain ⟨-, ha₁, ha₂⟩ := ha.of_build_red
            have hnear : s.child d W.ref = N.ref := by rw [hW.child_focus, treeRef_build]
            have hpar₁ := parent_treeRef
              (p := ⟨d, c, P, d.build .black a₁ N (d.build .red a₂ W b)⟩ :: q) h₁ hnil
            have hsib := h₁.child_other_focus
            rw [treeRef_build] at hsib
            rw [parentOf] at hpar₁
            have hfin := hdone h₁ ha₁ (.build_red ha₂ hb) hp₁
            simpa only [hnear, if_true, hpar₁, hsib] using hfin

/-- One round on side `d`, from a black focus below a parent. -/
theorem deleteFixupSide_spec {w : ColorTree Cell} {cw : Color} (hnil : t = .leaf → s₀.parent .nil = P.ref)
    (h : s₀.Tracks s L (plug q (d.build c t P w))) (ht : Balanced t .black n)
    (hw : Balanced w cw (n + 1)) (hp : PathBalanced (⟨d, c, P, w⟩ :: q) .black (n + 1)) :
    Repaired s₀ L (deleteFixupSide d (treeRef t) s) ∨
      ∃ t', (deleteFixupSide d (treeRef t) s).1 = treeRef t' ∧ t' ≠ .leaf ∧
        s₀.Tracks (deleteFixupSide d (treeRef t) s).2 L (plug q t') ∧ Deficient t' q := by
  obtain ⟨a, W, b, rfl⟩ := hw.exists_build d
  have hpar : s.parent (treeRef t) = P.ref :=
    parent_treeRef (p := ⟨d, c, P, d.build cw a W b⟩ :: q) h hnil
  have hsib : s.child d.other P.ref = W.ref := by rw [h.child_other_focus, treeRef_build]
  have hcw : s.color W.ref = cw := by
    have hW : s₀.Tracks s L (plug (⟨d.other, c, P, t⟩ :: q) (d.build cw a W b)) := by
      rw [plug_cons, Frame.fill, Side.build_other]
      exact h
    rw [← treeRef_build, hW.color_focus, treeColor_build]
  simp only [deleteFixupSide, hpar, hsib, hcw]
  cases cw with
  | black =>
      rcases deleteFixupSibling_spec hnil h ht hp with hdone | ⟨hfst, hsnd, hdef⟩
      · exact .inl hdone
      · refine .inr ⟨_, by rw [treeRef_build]; exact hfst, ?_, hsnd, hdef⟩
        cases d <;> simp [Side.build]
  | red =>
      left
      obtain ⟨rfl, ha, hp₁⟩ := RedBlackTree.delete_rotate_sibling hp
      obtain ⟨a₁, N, a₂, rfl⟩ := ha.exists_build d
      have h₁ := h.setColor_sibling .black
      have hpar₁ := parent_treeRef (p := ⟨d, .black, P, d.build .black _ W b⟩ :: q) h₁ hnil
      have h₂ := h₁.setColor .red
      have hpar₂ := parent_treeRef (p := ⟨d, .red, P, d.build .black _ W b⟩ :: q) h₂ hnil
      have h₃ := h₂.rotate
      have hP₃ : s₀.Tracks _ L (plug (⟨d, .black, W, b⟩ :: q) (d.build .red t P _)) := h₃
      have hpar₃ := parent_treeRef
        (p := ⟨d, .red, P, d.build .black a₁ N a₂⟩ :: ⟨d, .black, W, b⟩ :: q) h₃ hnil
      have hsib₃ := hP₃.child_other_focus
      rw [treeRef_build] at hsib₃
      rw [parentOf] at hpar₁ hpar₂ hpar₃
      simp only [if_true, hpar₁, hpar₂, rotateSide_eq, hpar₃, hsib₃]
      rcases deleteFixupSibling_spec hnil hP₃ ht hp₁ with hdone | ⟨hfst, hsnd, hdef⟩
      · exact hdone
      · -- the parent is red now, so the loop stops there
        obtain ⟨l, r, hlr⟩ : ∃ l r,
            d.build .red t P (d.build .red a₁ N a₂) = .node .red l P r := by
          cases d
          exacts [⟨_, _, rfl⟩, ⟨_, _, rfl⟩]
        rw [hlr] at hsnd hdef
        rw [← Prod.mk.eta (p := deleteFixupSibling _ _ _ _), hfst]
        exact repaired_red hsnd hdef

/-- The round is made on the side of the focus. -/
theorem deleteFixupStep_eq {w : ColorTree Cell} (hnil : t = .leaf → s₀.parent .nil = P.ref)
    (h : s₀.Tracks s L (plug q (d.build c t P w))) (hw : w ≠ .leaf) :
    deleteFixupStep (treeRef t) s = deleteFixupSide d (treeRef t) s := by
  have hpar : s.parent (treeRef t) = P.ref := parent_treeRef (p := ⟨d, c, P, w⟩ :: q) h hnil
  have hne : s.child d.other P.ref ≠ treeRef t := by
    rw [h.child_other_focus]
    exact (h.treeRef_ne (.inr hw)).symm
  rw [deleteFixupStep, hpar]
  exact ite_child_left d h.child_focus hne fun d => deleteFixupSide d (treeRef t) s

end RbState.Tracks

/-- A repaired state ends the loop. -/
theorem deleteFixup_of_repaired {s₀ : RbState} {L : List Cell} {r : Ref × RbState}
    (h : RbState.Tracks.Repaired s₀ L r) (n : ℕ) :
    ∃ s' T, deleteFixup (n + 1) r.1 r.2 = some s' ∧ s₀.Tracks s' L T ∧ ∃ m, Balanced T .black m := by
  obtain ⟨hstop, T, m, hT, hbal⟩ := h
  exact ⟨_, T, by rw [deleteFixup, if_neg hstop], hT, m, hbal⟩

/-- **`delete_fixup`** ends, keeps the labels and leaves a red-black tree with a black root. -/
theorem deleteFixup_spec {s₀ : RbState} {L : List Cell} (n : ℕ) :
    ∀ {s : RbState} {p : Path Cell} {t : ColorTree Cell},
      s₀.Tracks s L (plug p t) → Deficient t p → (t = .leaf → s₀.parent .nil = parentOf p) →
      p.length + 1 < n →
      ∃ s' T, deleteFixup n (treeRef t) s = some s' ∧ s₀.Tracks s' L T ∧
        ∃ m', Balanced T .black m' := by
  induction n with
  | zero => intro s p t _ _ _ hn; omega
  | succ n ih =>
      intro s p t h hdef hnil hn
      match p, hdef, hnil with
      | [], hdef, _ =>
          -- the focus is the root
          obtain ⟨m, hm⟩ := hdef.blacken_root
          have hroot : s.root = treeRef t := h.root
          refine ⟨_, _, by rw [deleteFixup, if_neg (by simp [hroot])], ?_, m, hm⟩
          cases t with
          | leaf => rwa [treeRef_leaf, RbState.setColor_black_eq h.nilBlack]
          | node c l k r => exact RbState.Tracks.setColor (p := []) (d := .left) h .black
      | ⟨d, c, P, w⟩ :: q, hdef, hnil =>
          by_cases hred : ∃ l k r, t = .node .red l k r
          · obtain ⟨l, k, r, rfl⟩ := hred
            exact deleteFixup_of_repaired (h.repaired_red hdef) n
          · -- a black focus below a parent takes a round
            have hne : ∀ l k r, t ≠ .node .red l k r := fun l k r h => hred ⟨l, k, r, h⟩
            obtain ⟨m, cw, ht, hw, hp⟩ := hdef.black_cases hne
            have hwleaf : w ≠ .leaf := by rintro rfl; cases hw
            have hgo : treeRef t ≠ s.root ∧ s.color (treeRef t) = .black :=
              ⟨h.treeRef_ne_root, by rw [h.color_focus, treeColor_of_balanced ht]⟩
            simp only [List.length_cons] at hn
            obtain ⟨n, rfl⟩ : ∃ n', n = n' + 1 := ⟨n - 1, by omega⟩
            rw [deleteFixup, if_pos hgo, RbState.Tracks.deleteFixupStep_eq hnil h hwleaf]
            rcases RbState.Tracks.deleteFixupSide_spec hnil h ht hw hp with
              hdone | ⟨t', hfst, hleaf, hsnd, hdef'⟩
            · exact deleteFixup_of_repaired hdone n
            · simp only [hfst]
              exact ih hsnd hdef' (fun h => absurd h hleaf) (by omega)

end Microkernel.Vma
