import Microkernel.Vma.RbTreeDelete

/-! # Taking a node out of the red-black tree

`rb_remove` unlinks a node with `transplant`. A node with two children is replaced by its successor,
the leftmost node of the right subtree, which is itself transplanted out first. What remains is laid
out again, one node short, with a focus where a black node may be missing.

* **`transplant_spec`** — the writes that put one subtree in the place of another one, the parent of the
  sentinel among them.
* **`rbUnlink_spec`** — one node less. If the colour that left is red the tree is a red-black tree still;
  if it is black the focus is where a black node is missing, and the repair begins there.
-/

namespace Microkernel.Vma

open RedBlackTree

/-- A laid out tree, tracked from its own state. -/
theorem RbState.Tracks.of_laidOut {s : RbState} {p : Path Cell} {t : ColorTree Cell}
    (hnd : (idxs (plug p t)).Nodup) (hpath : PathLaidOut s p (treeRef t))
    (hfocus : LaidOut s.mem (parentOf p) t) (hnil : (s.mem .nil).color = .black) :
    s.Tracks s (before p ++ t.toList ++ after p) (plug p t) := by
  obtain ⟨hroot, hlaid⟩ := laidOut_plug.mpr ⟨hpath, hfocus⟩
  exact
    { toList := toList_plug p t
      nodup := by rwa [← toList_plug]
      root := hroot
      laidOut := hlaid
      nilBlack := hnil
      outside := fun _ _ => rfl
      freeHead := rfl
      count := rfl }

/-- A pointer that is none of the entries of a path. -/
theorem ne_pool_of_notMem {p : Path Cell} {k : Cell} (hk : k.idx ∉ pathIdxs p) :
    ∀ i ∈ pathIdxs p, k.ref ≠ .pool i := by
  rintro i hi h
  cases h
  exact hk hi

/-! ### `transplant` -/

/-- `transplant`, with the values it reads put in. -/
theorem transplant_eq {s : RbState} {p : Path Cell} {k : Cell} (v : Ref)
    (hpath : PathLaidOut s p k.ref) (hpar : s.parent k.ref = parentOf p)
    (hk : k.idx ∉ pathIdxs p) :
    transplant k.ref v s = (s.hang p v).setParent v (parentOf p) := by
  have hhang : (s.hang p v).parent k.ref = parentOf p := by
    rw [RbState.parent, RbState.mem_hang (ne_pool_of_notMem hk), ← RbState.parent, hpar]
  have hreplace := hpath.replace_eq s .left v
    (fun f hf => treeRef_ne_pool fun hi => hk (mem_pathIdxs_of_mem hf (.inr hi))) fun _ _ => rfl
  rw [Side.other] at hreplace
  simp only [transplant, hpar, hreplace, hhang]

/-- Putting the only subtree of a node in its place. -/
theorem transplant_spec {s : RbState} {L : List Cell} {p : Path Cell} {u : ColorTree Cell} {d : Side}
    {c : Color} {k : Cell} (h : s.Tracks s L (plug p (d.build c .leaf k u))) :
    (transplant k.ref (treeRef u) s).Tracks (transplant k.ref (treeRef u) s)
        (before p ++ u.toList ++ after p) (plug p u) ∧
      (u = .leaf → (transplant k.ref (treeRef u) s).parent .nil = parentOf p) ∧
      (transplant k.ref (treeRef u) s).freeHead = s.freeHead ∧
      (transplant k.ref (treeRef u) s).count = s.count ∧
      ∀ i, i ∉ idxs u → i ∉ pathIdxs p →
        (transplant k.ref (treeRef u) s).mem (.pool i) = s.mem (.pool i) := by
  obtain ⟨hpath, hfocus⟩ := h.focus
  obtain ⟨hnd, hndp, hout⟩ := h.nodup_focus
  obtain ⟨hk, -, hu⟩ := laidOut_build.mp hfocus
  obtain ⟨-, hndu, -, hku, -⟩ := nodup_idxs_build.mp hnd
  have hkp : k.idx ∉ pathIdxs p := hout _ (mem_idxs_build.mpr (.inl rfl))
  have hup : ∀ i ∈ idxs u, i ∉ pathIdxs p := fun i hi => hout i (mem_idxs_build.mpr (by tauto))
  rw [treeRef_build] at hpath
  rw [transplant_eq (treeRef u) hpath h.parent_focus hkp]
  set s' := (s.hang p (treeRef u)).setParent (treeRef u) (parentOf p) with hs'
  have hsame : ∀ i, .pool i ≠ treeRef u → s'.mem (.pool i) = (s.hang p (treeRef u)).mem (.pool i) :=
    fun i hi => by rw [hs', RbState.mem_setParent, if_neg hi]
  have hpool : ∀ i, i ∉ pathIdxs p →
      (s.hang p (treeRef u)).mem (.pool i) = s.mem (.pool i) := by
    intro i hi
    refine RbState.mem_hang fun j hj h => ?_
    cases h
    exact hi hj
  refine ⟨RbState.Tracks.of_laidOut ?_ ?_ ?_ ?_, ?_, ?_, ?_, ?_⟩
  · exact nodup_idxs_plug.mpr ⟨hndu, hndp, hup⟩
  · exact (hpath.hang hndp _).congr rfl fun i hi =>
      hsame i (treeRef_ne_pool fun hiu => hup i hiu hi).symm
  · refine hu.reparent hndu (fun _ => ?_) fun i hi hne => (hsame i hne).trans (hpool i (hup i hi))
    rw [hs', RbState.mem_setParent, if_pos rfl,
      RbState.mem_hang fun i hi => treeRef_ne_pool fun hiu => hup i hiu hi]
  · have hnil : ((s.hang p (treeRef u)).mem .nil).color = .black := by
      rw [RbState.mem_hang (by simp), h.nilBlack]
    rw [hs', RbState.mem_setParent]
    split
    · rename_i heq
      rw [heq] at hnil
      exact hnil
    · exact hnil
  · rintro rfl
    rw [RbState.parent, hs', RbState.mem_setParent, if_pos treeRef_leaf.symm]
  · cases p <;> rfl
  · cases p <;> rfl
  · exact fun i hiu hip => (hsame i (treeRef_ne_pool hiu).symm).trans (hpool i hip)

/-! ### The successor -/

/-- `tree_minimum` finds the leftmost node. -/
theorem treeMinimum_spec {s : RbState} (n : ℕ) :
    ∀ {par : Ref} {t : ColorTree Cell}, LaidOut s.mem par t → t ≠ .leaf → t.toList.length ≤ n →
      ∃ m c y u, t = plug m (.node c .leaf y u) ∧ before m = [] ∧
        treeMinimum n (treeRef t) s = some y.ref := by
  induction n with
  | zero =>
      intro par t _ hne hlen
      cases t with
      | leaf => exact absurd rfl hne
      | node c l k r => simp at hlen
  | succ n ih =>
      intro par t h hne hlen
      cases t with
      | leaf => exact absurd rfl hne
      | node c l k r =>
          obtain ⟨hk, hl, -⟩ := h
          have hchild : s.child .left k.ref = treeRef l := by rw [RbState.child, hk]; rfl
          rw [treeRef_node, treeMinimum, hchild]
          cases l with
          | leaf => exact ⟨[], c, k, r, rfl, rfl, if_neg (by simp)⟩
          | node c' l' k' r' =>
              simp only [ColorTree.toList_node, List.length_append, List.length_cons] at hlen
              obtain ⟨m, cy, y, u, hplug, hbefore, hmin⟩ := ih hl (by simp)
                (by simp only [ColorTree.toList_node, List.length_append, List.length_cons]; omega)
              refine ⟨m ++ [⟨.left, c, k, r⟩], cy, y, u, ?_, ?_, ?_⟩
              · rw [plug_append, ← hplug]
                rfl
              · rw [before_append, hbefore]
                rfl
              · rw [if_pos (by simp), hmin]

/-- The part of `rb_remove` that puts the successor `y` in the place of `z`. -/
def takePlace (z y : Ref) (s : RbState) : RbState :=
  let s := transplant z y s
  let s := s.setChild .left y (s.child .left z)
  let s := s.setParent (s.child .left y) y
  s.setColor y (s.color z)

/-- A node `y` outside the tree, with `r` as its right subtree, takes the place of `k`. -/
theorem takePlace_spec {s : RbState} {p : Path Cell} {c : Color} {l r : ColorTree Cell} {k y : Cell}
    (hpath : PathLaidOut s p k.ref) (hpar : s.parent k.ref = parentOf p)
    (hcolor : s.color k.ref = c) (hleft : s.child .left k.ref = treeRef l)
    (hl : LaidOut s.mem k.ref l) (hleaf : l ≠ .leaf) (hr : LaidOut s.mem y.ref r)
    (hyarea : (s.mem y.ref).area = y.area) (hyright : (s.mem y.ref).right = treeRef r)
    (hnd : (idxs (plug p (.node c l y r))).Nodup)
    (hk : k.idx ∉ idxs (plug p (.node c l y r))) (hnil : (s.mem .nil).color = .black) :
    (takePlace k.ref y.ref s).Tracks (takePlace k.ref y.ref s)
        (before p ++ (l.toList ++ y :: r.toList) ++ after p) (plug p (.node c l y r)) ∧
      (takePlace k.ref y.ref s).freeHead = s.freeHead ∧
      (takePlace k.ref y.ref s).count = s.count ∧
      ∀ x, (∀ i ∈ idxs (plug p (.node c l y r)), x ≠ .pool i) →
        (takePlace k.ref y.ref s).mem x = s.mem x := by
  obtain ⟨hndt, hndp, hout⟩ := nodup_idxs_plug.mp hnd
  obtain ⟨hndl, -, hyl, hyr, hlr⟩ := (nodup_idxs_build (d := .left)).mp hndt
  have hmem : ∀ {i}, i ∈ idxs (.node c l y r) ↔ i = y.idx ∨ i ∈ idxs l ∨ i ∈ idxs r :=
    mem_idxs_build (d := .left) (c := c)
  simp only [mem_idxs_plug, hmem, not_or] at hk
  obtain ⟨⟨hky, hkl, hkr⟩, hkp⟩ := hk
  have hky : k.ref ≠ y.ref := by simpa using hky
  have hlk : treeRef l ≠ k.ref := treeRef_ne_pool hkl
  have hly : treeRef l ≠ y.ref := treeRef_ne_pool hyl
  have hyp : y.idx ∉ pathIdxs p := hout _ (hmem.mpr (.inl rfl))
  have hlp : ∀ i ∈ idxs l, i ∉ pathIdxs p := fun i hi => hout i (hmem.mpr (by tauto))
  have hrp : ∀ i ∈ idxs r, i ∉ pathIdxs p := fun i hi => hout i (hmem.mpr (by tauto))
  -- the state with the values read put in
  have heq : takePlace k.ref y.ref s =
      ((((s.hang p y.ref).setParent y.ref (parentOf p)).setChild .left y.ref (treeRef l)).setParent
        (treeRef l) y.ref).setColor y.ref c := by
    have htrans := transplant_eq y.ref hpath hpar hkp
    set s₁ := (s.hang p y.ref).setParent y.ref (parentOf p) with hs₁
    have hk₁ : s₁.mem k.ref = s.mem k.ref := by
      rw [hs₁, RbState.mem_setParent, if_neg hky, RbState.mem_hang (ne_pool_of_notMem hkp)]
    have hleft₁ : s₁.child .left k.ref = treeRef l := by rw [RbState.child, hk₁]; exact hleft
    have hleft₂ : (s₁.setChild .left y.ref (treeRef l)).child .left y.ref = treeRef l := by
      rw [RbState.child, RbState.mem_setChild, if_pos rfl]
      rfl
    have hcolor₃ : ((s₁.setChild .left y.ref (treeRef l)).setParent (treeRef l) y.ref).color k.ref =
        c := by
      rw [RbState.color, RbState.mem_setParent, if_neg hlk.symm, RbState.mem_setChild, if_neg hky,
        hk₁]
      exact hcolor
    simp only [takePlace, htrans, hleft₁, hleft₂, hcolor₃]
  rw [heq]
  set s' := ((((s.hang p y.ref).setParent y.ref (parentOf p)).setChild .left y.ref
    (treeRef l)).setParent (treeRef l) y.ref).setColor y.ref c with hs'
  have hsame : ∀ x, x ≠ y.ref → x ≠ treeRef l → s'.mem x = (s.hang p y.ref).mem x := by
    intro x hxy hxl
    rw [hs', RbState.mem_setColor, if_neg hxy, RbState.mem_setParent, if_neg hxl,
      RbState.mem_setChild, if_neg hxy, RbState.mem_setParent, if_neg hxy]
  have hy' : s'.mem y.ref = ⟨y.area, c, parentOf p, treeRef l, treeRef r⟩ := by
    rw [hs', RbState.mem_setColor, if_pos rfl, RbState.mem_setParent, if_neg hly.symm,
      RbState.mem_setChild, if_pos rfl, RbState.mem_setParent, if_pos rfl,
      RbState.mem_hang (ne_pool_of_notMem hyp), ← hyarea, ← hyright]
    rfl
  have hout' : ∀ i, i ∉ pathIdxs p → ∀ j ∈ pathIdxs p, Ref.pool i ≠ .pool j := by
    rintro i hi j hj h
    cases h
    exact hi hj
  have hsame' : ∀ x, (∀ i ∈ idxs (plug p (.node c l y r)), x ≠ .pool i) → s'.mem x = s.mem x := by
    intro x hx
    have hxl : x ≠ treeRef l := by
      obtain ⟨i, hi, hroot⟩ := (treeRef_eq l).resolve_left (by cases l <;> simp_all)
      rw [hroot]
      exact hx i (mem_idxs_plug.mpr (.inl (hmem.mpr (.inr (.inl hi)))))
    rw [hsame x (hx y.idx (mem_idxs_plug.mpr (.inl (hmem.mpr (.inl rfl))))) hxl,
      RbState.mem_hang fun i hi => hx i (mem_idxs_plug.mpr (.inr hi))]
  have hl' : LaidOut s'.mem y.ref l := by
    refine hl.reparent hndl (fun hne => ?_) fun i hi hne => ?_
    · rw [hs', RbState.mem_setColor, if_neg hly, RbState.mem_setParent, if_pos rfl,
        RbState.mem_setChild, if_neg hly, RbState.mem_setParent, if_neg hly,
        RbState.mem_hang fun i hi => treeRef_ne_pool fun hil => hlp i hil hi]
    · rw [hsame _ (fun h => hyl (Cell.pool_eq_ref.mp h ▸ hi)) hne,
        RbState.mem_hang (hout' i (hlp i hi))]
  have hr' : LaidOut s'.mem y.ref r := by
    refine hr.congr fun i hi => ?_
    rw [hsame _ (fun h => hyr (Cell.pool_eq_ref.mp h ▸ hi))
      (treeRef_ne_pool fun hil => hlr i hil hi).symm, RbState.mem_hang (hout' i (hrp i hi))]
  have hpath' : PathLaidOut s' p y.ref := by
    refine (hpath.hang hndp y.ref).congr rfl fun i hi => hsame _ ?_ ?_
    · exact fun h => hyp (Cell.pool_eq_ref.mp h ▸ hi)
    · exact (treeRef_ne_pool fun hil => hlp i hil hi).symm
  refine ⟨RbState.Tracks.of_laidOut hnd hpath' ⟨hy', hl', hr'⟩ ?_, ?_, ?_, hsame'⟩
  · rw [hsame' .nil (by simp)]
    exact hnil
  · cases p <;> rfl
  · cases p <;> rfl

/-- Moving the successor takes the entry of `k` out of the tree. -/
theorem idxs_splice_perm (p m : Path Cell) (c cy : Color) (l u : ColorTree Cell) (k y : Cell) :
    (idxs (plug p (.node c l k (plug m (.node cy .leaf y u))))).Perm
      (k.idx :: idxs (plug p (.node c l y (plug m u)))) := by
  have hnode : ∀ (c : Color) (l : ColorTree Cell) (k : Cell) (r : ColorTree Cell),
      idxs (.node c l k r) = idxs l ++ k.idx :: idxs r := by
    intro c l k r
    simp [idxs]
  rw [List.perm_iff_count]
  intro a
  simp only [List.count_cons, (idxs_plug_perm _ _).count_eq, hnode, List.count_append]
  simp only [idxs, ColorTree.toList_leaf, List.map_nil, List.count_nil]
  omega

section Splice

variable {s : RbState} {L : List Cell} {p m : Path Cell} {c cy : Color} {l u : ColorTree Cell}
  {k y : Cell}

/-- The successor is the right child: only its subtree's parent field is set first. -/
theorem rbSplice_child
    (h : s.Tracks s L (plug p (.node c l k (.node cy .leaf y u)))) (hleaf : l ≠ .leaf) :
    (rbSplice k.ref y.ref s).1 = treeRef u ∧
      (rbSplice k.ref y.ref s).2.Tracks (rbSplice k.ref y.ref s).2
        (before p ++ (l.toList ++ y :: u.toList) ++ after p)
        (plug (⟨.right, c, y, l⟩ :: p) u) ∧
      (u = .leaf → (rbSplice k.ref y.ref s).2.parent .nil = y.ref) ∧
      (rbSplice k.ref y.ref s).2.freeHead = s.freeHead ∧
      (rbSplice k.ref y.ref s).2.count = s.count ∧
      ∀ i ∉ idxs (plug p (.node c l k (.node cy .leaf y u))),
        (rbSplice k.ref y.ref s).2.mem (.pool i) = s.mem (.pool i) := by
  have hk : s.mem k.ref = ⟨k.area, c, parentOf p, treeRef l, y.ref⟩ :=
    RbState.Tracks.mem_focus (d := .left) h
  have hyT : s.Tracks s L (plug (⟨.right, c, k, l⟩ :: p) (Side.left.build cy .leaf y u)) := h
  have hy : s.mem y.ref = ⟨y.area, cy, k.ref, .nil, treeRef u⟩ := hyT.mem_focus
  -- the node that is taken out, the one that takes its place, and the others are all different
  have hperm := idxs_splice_perm p [] c cy l u k y
  rw [plug_nil, plug_nil] at hperm
  have hnd : (k.idx :: idxs (plug p (.node c l y u))).Nodup := by
    rw [← hperm.nodup_iff, idxs, h.toList]
    exact h.nodup
  obtain ⟨hkt, hnd⟩ := List.nodup_cons.mp hnd
  obtain ⟨hndt, -, hout⟩ := nodup_idxs_plug.mp hnd
  obtain ⟨-, hndu, -, hyu, hlu⟩ := (nodup_idxs_build (d := .left)).mp hndt
  have hmem : ∀ {i}, i ∈ idxs (plug p (.node c l y u)) ↔
      (i = y.idx ∨ i ∈ idxs l ∨ i ∈ idxs u) ∨ i ∈ pathIdxs p := by
    intro i
    rw [mem_idxs_plug]
    exact or_congr_left (mem_idxs_build (d := .left) (c := c))
  have huk : treeRef u ≠ k.ref := treeRef_ne_pool fun hi => hkt (hmem.mpr (by tauto))
  have huy : treeRef u ≠ y.ref := treeRef_ne_pool hyu
  -- `x->parent = y`, also when `x` is the sentinel
  set s₁ := s.setParent (treeRef u) y.ref with hs₁
  have hsame : ∀ x, x ≠ treeRef u → s₁.mem x = s.mem x := fun x hx => by
    rw [hs₁, RbState.mem_setParent, if_neg hx]
  have hk₁ : s₁.mem k.ref = s.mem k.ref := hsame _ huk.symm
  have hy₁ : s₁.mem y.ref = s.mem y.ref := hsame _ huy.symm
  obtain ⟨hpath, -, hl, -, -, hu⟩ := h.focus
  have hright : s.child .right y.ref = treeRef u := by rw [RbState.child, hy]; rfl
  have hparent : s.parent y.ref = k.ref := by rw [RbState.parent, hy]
  have heq : rbSplice k.ref y.ref s = (treeRef u, takePlace k.ref y.ref s₁) := by
    simp only [rbSplice, hright, hparent, if_true]
    rfl
  have hnil₁ : (s₁.mem .nil).color = .black := by
    have hnil := h.nilBlack
    rw [hs₁, RbState.mem_setParent]
    split
    · rename_i heq
      rwa [heq] at hnil
    · exact hnil
  have hup : ∀ i ∈ idxs u, i ∉ pathIdxs p := fun i hi =>
    hout i ((mem_idxs_build (d := .left)).mpr (.inr (.inr hi)))
  obtain ⟨htracks, hfree, hcount, hsame₂⟩ := takePlace_spec (s := s₁) (p := p) (c := c) (l := l)
    (r := u) (k := k) (y := y)
    (hpath.congr rfl fun i hi => hsame _ (treeRef_ne_pool fun hiu => hup i hiu hi).symm)
    (by rw [RbState.parent, hk₁, hk]) (by rw [RbState.color, hk₁, hk])
    (by rw [RbState.child, hk₁, hk]; rfl)
    (hl.congr fun i hi => hsame _ (treeRef_ne_pool (hlu i hi)).symm) hleaf
    (hu.reparent hndu (fun _ => by rw [hs₁, RbState.mem_setParent, if_pos rfl])
      fun i _ hne => hsame _ hne)
    (by rw [hy₁, hy]) (by rw [hy₁, hy]) hnd hkt hnil₁
  rw [heq]
  refine ⟨rfl, htracks, ?_, hfree, hcount, fun i hi => ?_⟩
  · rintro rfl
    rw [RbState.parent, hsame₂ .nil (by simp), hs₁, RbState.mem_setParent, if_pos treeRef_leaf.symm]
  · rw [hperm.mem_iff, List.mem_cons, not_or] at hi
    rw [hsame₂ _ (by rintro j hj ⟨rfl⟩; exact hi.2 hj),
      hsame _ (treeRef_ne_pool fun hiu => hi.2 (hmem.mpr (by tauto))).symm]

/-- The successor lies deeper: it is transplanted out and takes over the right subtree first. -/
theorem rbSplice_deep {f : Frame Cell}
    (h : s.Tracks s L (plug p (.node c l k (plug (f :: m) (.node cy .leaf y u)))))
    (hleaf : l ≠ .leaf) :
    (rbSplice k.ref y.ref s).1 = treeRef u ∧
      (rbSplice k.ref y.ref s).2.Tracks (rbSplice k.ref y.ref s).2
        (before p ++ (l.toList ++ y :: (plug (f :: m) u).toList) ++ after p)
        (plug p (.node c l y (plug (f :: m) u))) ∧
      (u = .leaf → (rbSplice k.ref y.ref s).2.parent .nil = f.key.ref) ∧
      (rbSplice k.ref y.ref s).2.freeHead = s.freeHead ∧
      (rbSplice k.ref y.ref s).2.count = s.count ∧
      ∀ i ∉ idxs (plug p (.node c l k (plug (f :: m) (.node cy .leaf y u)))),
        (rbSplice k.ref y.ref s).2.mem (.pool i) = s.mem (.pool i) := by
  have hperm := idxs_splice_perm p (f :: m) c cy l u k y
  have hnd : (k.idx :: idxs (plug p (.node c l y (plug (f :: m) u)))).Nodup := by
    rw [← hperm.nodup_iff, idxs, h.toList]
    exact h.nodup
  obtain ⟨hkt, hnd⟩ := List.nodup_cons.mp hnd
  obtain ⟨hndt, -, hout⟩ := nodup_idxs_plug.mp hnd
  set R := plug (f :: m) u with hR
  obtain ⟨-, hndR, -, hyR, hlR⟩ := (nodup_idxs_build (d := .left)).mp hndt
  have hmem : ∀ {i}, i ∈ idxs (plug p (.node c l y R)) ↔
      (i = y.idx ∨ i ∈ idxs l ∨ i ∈ idxs R) ∨ i ∈ pathIdxs p := by
    intro i
    rw [mem_idxs_plug]
    exact or_congr_left (mem_idxs_build (d := .left) (c := c))
  have hmemR : ∀ {i}, i ∈ idxs R ↔ i ∈ idxs u ∨ i ∈ pathIdxs (f :: m) := mem_idxs_plug
  have hRk : treeRef R ≠ k.ref := treeRef_ne_pool fun hi => hkt (hmem.mpr (by tauto))
  have hRy : treeRef R ≠ y.ref := treeRef_ne_pool hyR
  have hky : k.ref ≠ y.ref := by
    intro hky
    exact hkt (hmem.mpr (.inl (.inl (Cell.ref_inj.mp hky))))
  have hRp : ∀ i ∈ idxs R, i ∉ pathIdxs p := fun i hi =>
    hout i ((mem_idxs_build (d := .left)).mpr (.inr (.inr hi)))
  have hyp : y.idx ∉ pathIdxs p := hout _ ((mem_idxs_build (d := .left)).mpr (.inl rfl))
  -- `y` is transplanted out
  have hyT : s.Tracks s L (plug (f :: m ++ ⟨.right, c, k, l⟩ :: p) (Side.left.build cy .leaf y u)) := by
    rw [plug_append]
    exact h
  have hparent : s.parent y.ref = f.key.ref := hyT.parent_focus
  have hfk : f.key.ref ≠ k.ref := by
    intro hfk
    refine hkt (hmem.mpr (.inl (.inr (.inr (hmemR.mpr (.inr (mem_pathIdxs_cons.mpr (.inl ?_))))))))
    exact (Cell.ref_inj.mp hfk).symm
  have hright : s.child .right y.ref = treeRef u := hyT.child_other_focus
  obtain ⟨hA, hAnil, hAfree, hAcount, hAsame⟩ := transplant_spec hyT
  set sA := transplant y.ref (treeRef u) s with hsA
  rw [plug_append, ← hR] at hA
  have hkA : sA.mem k.ref = ⟨k.area, c, parentOf p, treeRef l, treeRef R⟩ :=
    RbState.Tracks.mem_focus (d := .left) hA
  have hyA : sA.mem y.ref = ⟨y.area, cy, f.key.ref, .nil, treeRef u⟩ := by
    have hyu : y.idx ∉ idxs u := fun hi => hyR (hmemR.mpr (.inl hi))
    refine (hAsame y.idx hyu (hyT.nodup_focus.2.2 _ (mem_idxs_build.mpr (.inl rfl)))).trans ?_
    exact hyT.mem_focus
  obtain ⟨hpath, -, hl, hRl⟩ := RbState.Tracks.focus (p := p) hA
  -- `y` takes over the right subtree
  have hrightA : sA.child .right k.ref = treeRef R := by rw [RbState.child, hkA]; rfl
  have hrightB : (sA.setChild .right y.ref (treeRef R)).child .right y.ref = treeRef R := by
    rw [RbState.child, RbState.mem_setChild, if_pos rfl]
    rfl
  set sC := (sA.setChild .right y.ref (treeRef R)).setParent (treeRef R) y.ref with hsC
  have hsame : ∀ x, x ≠ y.ref → x ≠ treeRef R → sC.mem x = sA.mem x := fun x hxy hxR => by
    rw [hsC, RbState.mem_setParent, if_neg hxR, RbState.mem_setChild, if_neg hxy]
  have hkC : sC.mem k.ref = sA.mem k.ref := hsame _ hky hRk.symm
  have hyC : sC.mem y.ref = ⟨y.area, cy, f.key.ref, .nil, treeRef R⟩ := by
    rw [hsC, RbState.mem_setParent, if_neg hRy.symm, RbState.mem_setChild, if_pos rfl, hyA]
    rfl
  have hRnil : treeRef R ≠ .nil := by
    obtain ⟨i, -, hi⟩ := treeRef_plug_cons f m u
    rw [hR, hi]
    simp
  have hnilC : sC.mem .nil = sA.mem .nil := hsame _ (by simp) hRnil.symm
  have heq : rbSplice k.ref y.ref s = (treeRef u, takePlace k.ref y.ref sC) := by
    simp only [rbSplice, hright, hparent, if_neg hfk]
    rw [← hsA, hrightA, hrightB]
    rfl
  obtain ⟨htracks, hfree, hcount, hsame₂⟩ := takePlace_spec (s := sC) (p := p) (c := c) (l := l)
    (r := R) (k := k) (y := y)
    (hpath.congr rfl fun i hi => hsame _ (fun h => hyp (Cell.pool_eq_ref.mp h ▸ hi))
      (treeRef_ne_pool fun hiR => hRp i hiR hi).symm)
    (by rw [RbState.parent, hkC, hkA]) (by rw [RbState.color, hkC, hkA])
    (by rw [RbState.child, hkC, hkA]; rfl)
    (hl.congr fun i hi => hsame _
      (fun h => ((nodup_idxs_build (d := .left)).mp hndt).2.2.1 (Cell.pool_eq_ref.mp h ▸ hi))
      (treeRef_ne_pool (hlR i hi)).symm) hleaf
    (hRl.reparent hndR (fun _ => by
        rw [hsC, RbState.mem_setParent, if_pos rfl, RbState.mem_setChild, if_neg hRy])
      fun i hi hne => hsame _ (fun h => hyR (Cell.pool_eq_ref.mp h ▸ hi)) hne)
    (by rw [hyC]) (by rw [hyC]) hnd hkt (by rw [hnilC]; exact hA.nilBlack)
  rw [heq]
  refine ⟨rfl, htracks, fun hu => ?_, hfree.trans hAfree, hcount.trans hAcount, fun i hi => ?_⟩
  · rw [RbState.parent, hsame₂ .nil (by simp), hnilC]
    exact hAnil hu
  · rw [hperm.mem_iff, List.mem_cons, not_or, hmem] at hi
    rw [hsame₂ _ (by rintro j hj ⟨rfl⟩; exact hi.2 (hmem.mp hj)),
      hsame _ (fun h => hi.2 (.inl (.inl (Cell.pool_eq_ref.mp h))))
        (treeRef_ne_pool fun hiR => hi.2 (by tauto)).symm, hAsame i ?_ ?_]
    · exact fun hiu => hi.2 (.inl (.inr (.inr (hmemR.mpr (.inl hiu)))))
    · rw [mem_pathIdxs_append, mem_pathIdxs_cons (f := ⟨.right, c, k, l⟩)]
      rintro (him | rfl | hil | hip)
      · exact hi.2 (.inl (.inr (.inr (hmemR.mpr (.inr him)))))
      · exact hi.1 rfl
      · exact hi.2 (.inl (.inr (.inl hil)))
      · exact hi.2 (.inr hip)

/-- What `rbSplice` leaves: the successor `y` in the place of `k`, and the subtree `u` in the old
place of `y`. -/
theorem rbSplice_spec
    (h : s.Tracks s L (plug p (.node c l k (plug m (.node cy .leaf y u))))) (hleaf : l ≠ .leaf) :
    (rbSplice k.ref y.ref s).1 = treeRef u ∧
      (rbSplice k.ref y.ref s).2.Tracks (rbSplice k.ref y.ref s).2
        (before p ++ (l.toList ++ y :: (plug m u).toList) ++ after p)
        (plug (m ++ ⟨.right, c, y, l⟩ :: p) u) ∧
      (u = .leaf →
        (rbSplice k.ref y.ref s).2.parent .nil = parentOf (m ++ ⟨.right, c, y, l⟩ :: p)) ∧
      (rbSplice k.ref y.ref s).2.freeHead = s.freeHead ∧
      (rbSplice k.ref y.ref s).2.count = s.count ∧
      ∀ i ∉ idxs (plug p (.node c l k (plug m (.node cy .leaf y u)))),
        (rbSplice k.ref y.ref s).2.mem (.pool i) = s.mem (.pool i) := by
  cases m with
  | nil => exact rbSplice_child h hleaf
  | cons f m =>
      rw [plug_append]
      exact rbSplice_deep h hleaf

end Splice

/-- **The unlinking part of `rb_remove`** takes one node out. When the colour taken out is red the
tree is still a red-black tree, and when it is black the focus is where a black node is missing. -/
theorem rbUnlink_spec {s : RbState} {L : List Cell} {p : Path Cell} {c : Color} {l r : ColorTree Cell}
    {k : Cell} {n : ℕ} (h : s.Tracks s L (plug p (.node c l k r)))
    (hbal : Balanced (plug p (.node c l k r)) .black n) (hlen : r.toList.length ≤ rbFuel) :
    ∃ p' t' cx s', rbUnlink k.ref s = some (treeRef t', cx, s') ∧
      s'.Tracks s' (before p ++ (l.toList ++ r.toList) ++ after p) (plug p' t') ∧
      (t' = .leaf → s'.parent .nil = parentOf p') ∧
      s'.freeHead = s.freeHead ∧ s'.count = s.count ∧
      (∀ i ∉ idxs (plug p (.node c l k r)), s'.mem (.pool i) = s.mem (.pool i)) ∧
      (cx = .red → ∃ m, Balanced (plug p' t') .black m) ∧ (cx = .black → Deficient t' p') := by
  have hl : s.child .left k.ref = treeRef l := RbState.Tracks.child_focus (d := .left) h
  have hr : s.child .right k.ref = treeRef r := RbState.Tracks.child_other_focus (d := .left) h
  have hc : s.color k.ref = c := RbState.Tracks.color_focus h
  have houtside : ∀ {d : Side} {u : ColorTree Cell}, ColorTree.node c l k r = d.build c .leaf k u →
      ∀ i ∉ idxs (plug p (.node c l k r)), i ∉ idxs u ∧ i ∉ pathIdxs p := by
    intro d u heq i hi
    rw [heq, mem_idxs_plug, mem_idxs_build] at hi
    tauto
  rw [rbUnlink, hl, hr, hc]
  cases l with
  | leaf =>
      rw [if_pos treeRef_leaf]
      -- no left child: the right one takes the place
      obtain ⟨htracks, hnil, hfree, hcount, hsame⟩ := transplant_spec (d := .left) h
      obtain ⟨hred, hblack⟩ := Balanced.take_out (d := .left) hbal
      refine ⟨p, r, c, _, rfl, by simpa using htracks, hnil, hfree, hcount, fun i hi => ?_, hred,
        hblack⟩
      exact hsame i (houtside (d := .left) rfl i hi).1 (houtside (d := .left) rfl i hi).2
  | node cl ll kl rl =>
      rw [if_neg (by simp)]
      cases r with
      | leaf =>
          rw [if_pos treeRef_leaf]
          -- no right child: the left one takes the place
          obtain ⟨htracks, hnil, hfree, hcount, hsame⟩ := transplant_spec (d := .right) h
          obtain ⟨hred, hblack⟩ := Balanced.take_out (d := .right) hbal
          refine ⟨p, _, c, _, rfl, by simpa using htracks, hnil, hfree, hcount, fun i hi => ?_,
            hred, hblack⟩
          exact hsame i (houtside (d := .right) rfl i hi).1 (houtside (d := .right) rfl i hi).2
      | node cr lr kr rr =>
          rw [if_neg (by simp)]
          obtain ⟨-, -, -, hlaidr⟩ := RbState.Tracks.focus (p := p) h
          -- two children: the successor has no left child, and is spliced out in the node's place
          obtain ⟨m, cy, y, u, hplug, hbefore, hmin⟩ :=
            treeMinimum_spec rbFuel hlaidr (by simp) hlen
          rw [hplug] at h hbal ⊢
          rw [hplug] at hmin
          have hcy : s.color y.ref = cy := by
            have hy : s.Tracks s L (plug (m ++ ⟨.right, c, k, .node cl ll kl rl⟩ :: p)
                (.node cy .leaf y u)) := by
              rw [plug_append]
              exact h
            exact hy.color_focus
          obtain ⟨hfst, htracks, hnil, hfree, hcount, hsame⟩ := rbSplice_spec h (by simp)
          have hlist : (plug m (.node cy .leaf y u)).toList = y :: (plug m u).toList := by
            rw [toList_plug, toList_plug, hbefore]
            rfl
          have hbal' : Balanced (plug (m ++ ⟨.right, c, y, .node cl ll kl rl⟩ :: p)
              (Side.left.build cy .leaf y u)) .black n := by
            rw [plug_append]
            exact Balanced.relabel y hbal
          obtain ⟨hred, hblack⟩ := hbal'.take_out
          rw [hmin, Option.map_some, hlist]
          refine ⟨_, u, cy, _, ?_, htracks, hnil, hfree, hcount, hsame, hred, hblack⟩
          simp only [hfst, hcy]

end Microkernel.Vma
