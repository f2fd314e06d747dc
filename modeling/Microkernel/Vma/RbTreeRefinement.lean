import Microkernel.Vma.RbTreeUnlink

/-! # The red-black tree refines the registry

The invariant of the backend: the pool is split into a red-black tree, whose in-order list of areas
is separated, and a chain of free entries. Every operation keeps it and acts on the list of areas as
the registry does; no loop runs out of rounds.

* **`RbState.Stores`** — that invariant, as a tree and a list beside the state.
* **`rbAddDescend_spec`** — the descent finds an overlap, or the leaf where the range belongs.
* **`rbAddNode_stores`, `rbRemove_node`** — the node that is put in, and the node that is taken out.
* **`rbOps_refines`** — the refinement.
-/

namespace Microkernel.Vma

open RedBlackTree

/-! ### The invariant -/

/-- The free nodes, chained through `right` from `x` and ended by `NULL`. -/
def FreeChain (m : Ref → RbNode) : Ref → List ℕ → Prop
  | x, [] => x = .null
  | x, i :: l => x = .pool i ∧ FreeChain m (m (.pool i)).right l

/-- Only the chained records matter. -/
theorem FreeChain.congr {m m' : Ref → RbNode} {x : Ref} {l : List ℕ} (h : FreeChain m x l)
    (hm : ∀ i ∈ l, m' (.pool i) = m (.pool i)) : FreeChain m' x l := by
  induction l generalizing x with
  | nil => exact h
  | cons i l ih =>
      refine ⟨h.1, ?_⟩
      rw [hm i (by simp)]
      exact ih h.2 fun j hj => hm j (by simp [hj])

/-- The areas of a tree in order. -/
def areasOf (T : ColorTree Cell) : List VmArea := T.toList.map Cell.area

/-- The static data hold the red-black tree `T` and the free chain `free`. -/
structure RbState.Stores (s : RbState) (T : ColorTree Cell) (free : List ℕ) : Prop where
  root : s.root = treeRef T
  laidOut : LaidOut s.mem .nil T
  nilBlack : (s.mem .nil).color = .black
  balanced : ∃ n, Balanced T .black n
  separated : Separated (areasOf T)
  chain : FreeChain s.mem s.freeHead free
  /-- Every pool entry is in the tree or on the chain, and only once. -/
  partition : (idxs T ++ free).Perm (List.range rbMaxNodes)
  count : s.count = T.toList.length

namespace RbState.Stores

variable {s : RbState} {T : ColorTree Cell} {free : List ℕ}

/-- No node of the pool is used twice, or used and free. -/
theorem nodup (h : s.Stores T free) : (idxs T ++ free).Nodup :=
  h.partition.nodup_iff.mpr List.nodup_range

/-- What is stored is tracked from itself. -/
theorem tracks (h : s.Stores T free) : s.Tracks s T.toList T where
  toList := rfl
  nodup := (List.nodup_append.mp h.nodup).1
  root := h.root
  laidOut := h.laidOut
  nilBlack := h.nilBlack
  outside _ _ := rfl
  freeHead := rfl
  count := rfl

/-- Nodes used and nodes free make up the pool. -/
theorem length_add (h : s.Stores T free) : T.toList.length + free.length = rbMaxNodes := by
  have := h.partition.length_eq
  rwa [List.length_append, idxs, List.length_map, List.length_range] at this

/-- The tree fits the fuel of the loops. -/
theorem length_lt (h : s.Stores T free) : T.toList.length < rbFuel := by
  have := h.length_add
  unfold rbFuel
  omega

end RbState.Stores

/-- A state that agrees on the nodes of a tracked balanced tree stores that tree. -/
theorem RbState.Tracks.stores {s₀ s s' : RbState} {L : List Cell} {T : ColorTree Cell} {free : List ℕ}
    (h : s₀.Tracks s L T) (hroot : s'.root = s.root) (hmem : ∀ k ∈ L, s'.mem k.ref = s.mem k.ref)
    (hnil : s'.mem .nil = s.mem .nil) (hbal : ∃ n, Balanced T .black n)
    (hsep : Separated (L.map Cell.area)) (hchain : FreeChain s'.mem s'.freeHead free)
    (hpart : (L.map Cell.idx ++ free).Perm (List.range rbMaxNodes)) (hcount : s'.count = L.length) :
    s'.Stores T free where
  root := hroot.trans h.root
  laidOut := h.laidOut.congr fun i hi => by
    rw [idxs, h.toList] at hi
    obtain ⟨k, hk, rfl⟩ := List.mem_map.mp hi
    exact hmem k hk
  nilBlack := by rw [hnil]; exact h.nilBlack
  balanced := hbal
  separated := by rwa [areasOf, h.toList]
  chain := hchain
  partition := by rwa [idxs, h.toList]
  count := by rw [hcount, h.toList]

/-- `pool_init` chains the entries in index order. -/
theorem poolInit_chain (s : RbState) (n : ℕ) :
    ∀ i, i + n + 1 = rbMaxNodes → FreeChain (poolInit s).mem (.pool i) (List.range' i (n + 1)) := by
  induction n with
  | zero =>
      intro i hi
      have hi : i = rbMaxNodes - 1 := by omega
      refine ⟨rfl, ?_⟩
      simp [FreeChain, poolInit, hi]
  | succ n ih =>
      intro i hi
      refine ⟨rfl, ?_⟩
      have hlt : i < rbMaxNodes - 1 := by omega
      have hright : ((poolInit s).mem (.pool i)).right = .pool (i + 1) := by simp [poolInit, hlt]
      rw [hright]
      exact ih (i + 1) (by omega)

/-- `rb_init` stores the empty tree, with every pool entry free. -/
theorem rbInit_stores (s₀ : RbState) : (rbInit s₀).Stores .leaf (List.range rbMaxNodes) where
  root := rfl
  laidOut := trivial
  nilBlack := rfl
  balanced := ⟨0, .leaf⟩
  separated := IntervalList.separated_nil
  chain := by
    rw [List.range_eq_range']
    exact poolInit_chain _ 255 0 rfl
  partition := by simp [idxs]
  count := rfl

/-! ### Lookup -/

/-- The areas of a tree, in order. -/
theorem areasOf_node (c : Color) (l : ColorTree Cell) (k : Cell) (r : ColorTree Cell) :
    areasOf (.node c l k r) = areasOf l ++ k.area :: areasOf r := by simp [areasOf]

/-- In a separated tree the root lies between its subtrees. -/
theorem separated_node {c : Color} {l r : ColorTree Cell} {k : Cell}
    (h : Separated (areasOf (.node c l k r))) :
    Separated (areasOf l) ∧ Separated (areasOf r) ∧ k.area.start < k.area.stop ∧
      (∀ a ∈ areasOf l, a.stop ≤ k.area.start) ∧ ∀ a ∈ areasOf r, k.area.stop ≤ a.start := by
  rw [areasOf_node] at h
  obtain ⟨hl, hkr, hlk⟩ := IntervalList.separated_append.mp h
  obtain ⟨hk, hr, hkr⟩ := IntervalList.separated_cons.mp hkr
  exact ⟨hl, hr, hk, fun a ha => hlk a ha k.area (by simp), hkr⟩

/-- The loop of `rb_find` ends at the area that holds the address, or at `NULL` when none does. -/
theorem rbFindFrom_spec {s : RbState} {t : ColorTree Cell} (addr : U32) (n : ℕ) :
    ∀ {par : Ref}, LaidOut s.mem par t → Separated (areasOf t) → t.toList.length < n →
      ∃ o, rbFindFrom s addr n (treeRef t) = some o ∧
        ∀ a, o = some a ↔ a ∈ areasOf t ∧ a.Holds addr := by
  induction t generalizing n with
  | leaf =>
      intro par _ _ hn
      obtain ⟨n, rfl⟩ : ∃ n', n = n' + 1 := ⟨n - 1, by omega⟩
      exact ⟨none, by simp [rbFindFrom], by simp [areasOf]⟩
  | node c l k r ihl ihr =>
      intro par h hsep hn
      obtain ⟨hk, hl, hr⟩ := h
      obtain ⟨hsl, hsr, hlt, hlk, hkr⟩ := separated_node hsep
      simp only [ColorTree.toList_node, List.length_append, List.length_cons] at hn
      obtain ⟨n, rfl⟩ : ∃ n', n = n' + 1 := ⟨n - 1, by omega⟩
      have hleft : s.child .left k.ref = treeRef l := by rw [RbState.child, hk]; rfl
      have hright : s.child .right k.ref = treeRef r := by rw [RbState.child, hk]; rfl
      rw [treeRef_node, rbFindFrom, if_pos (by simp), hleft, hright, hk]
      simp only [areasOf_node, List.mem_append, List.mem_cons, VmArea.Holds] at ihl ihr ⊢
      by_cases hlow : addr < k.area.start
      · -- what holds the address starts below the root
        obtain ⟨o, ho, hiff⟩ := ihl n hl hsl (by omega)
        refine ⟨o, by rw [if_pos hlow, ho], fun a => ?_⟩
        rw [hiff]
        constructor
        · rintro ⟨ha, hold⟩
          exact ⟨.inl ha, hold⟩
        · rintro ⟨ha | rfl | ha, hold⟩
          · exact ⟨ha, hold⟩
          · exact absurd hold.1 (BitVec.not_le.mpr hlow)
          · have := hkr a ha
            grind
      · by_cases hhigh : addr ≥ k.area.stop
        · obtain ⟨o, ho, hiff⟩ := ihr n hr hsr (by omega)
          refine ⟨o, by rw [if_neg hlow, if_pos hhigh, ho], fun a => ?_⟩
          rw [hiff]
          constructor
          · rintro ⟨ha, hold⟩
            exact ⟨.inr (.inr ha), hold⟩
          · rintro ⟨ha | rfl | ha, hold⟩
            · have := hlk a ha
              grind
            · exact absurd hold.2 (BitVec.not_lt.mpr hhigh)
            · exact ⟨ha, hold⟩
        · -- the root holds the address, and nothing else does
          refine ⟨some k.area, by rw [if_neg hlow, if_neg hhigh], fun a => ?_⟩
          rw [Option.some.injEq]
          constructor
          · rintro rfl
            exact ⟨.inr (.inl rfl), BitVec.not_lt.mp hlow, BitVec.not_le.mp hhigh⟩
          · rintro ⟨ha | rfl | ha, hold⟩
            · have := hlk a ha
              grind
            · rfl
            · have := hkr a ha
              grind

/-- `rb_find` is `find` on the registry. -/
theorem rbFind_stores {s : RbState} {T : ColorTree Cell} {free : List ℕ} {S : AreaSet}
    (h : s.Stores T free) (hS : areasOf T = S.areas) (addr : U32) :
    rbFind s addr = some (S.find addr) := by
  obtain ⟨o, ho, hiff⟩ := rbFindFrom_spec addr rbFuel h.laidOut h.separated h.length_lt
  rw [rbFind, h.root, ho]
  refine congrArg some (Option.ext fun a => ?_)
  rw [hiff, AreaSet.find_eq_some_iff, hS]

/-! ### Addition -/

/-- The areas of a path before and after its focus. -/
def areasBefore (p : Path Cell) : List VmArea := (before p).map Cell.area

/-- The areas of a path after its focus. -/
def areasAfter (p : Path Cell) : List VmArea := (after p).map Cell.area

/-- **The descent of `rb_add`**: it stops at a node that overlaps the new range, or finds the leaf
with everything before it below the range and everything after it above. -/
theorem rbAddDescend_spec {s : RbState} {start stop : U32} (hlt : start < stop) {t : ColorTree Cell}
    (n : ℕ) : ∀ {p : Path Cell}, LaidOut s.mem (parentOf p) t → Separated (areasOf t) →
      t.toList.length < n →
      (rbAddDescend s start stop n (parentOf p) (treeRef t) = some none ∧
        ∃ a ∈ areasOf t, start < a.stop ∧ a.start < stop) ∨
      ∃ q, plug q .leaf = t ∧
        rbAddDescend s start stop n (parentOf p) (treeRef t) = some (some (parentOf (q ++ p))) ∧
        (∀ a ∈ areasBefore q, a.start < a.stop ∧ a.stop ≤ start) ∧
        ∀ a ∈ areasAfter q, a.start < a.stop ∧ stop ≤ a.start := by
  induction t generalizing n with
  | leaf =>
      intro p _ _ hn
      obtain ⟨n, rfl⟩ : ∃ n', n = n' + 1 := ⟨n - 1, by omega⟩
      exact .inr ⟨[], rfl, by simp [rbAddDescend], by simp [areasBefore, before],
        by simp [areasAfter, after]⟩
  | node c l k r ihl ihr =>
      intro p h hsep hn
      obtain ⟨hk, hl, hr⟩ := h
      obtain ⟨hsl, hsr, hklt, hlk, hkr⟩ := separated_node hsep
      simp only [ColorTree.toList_node, List.length_append, List.length_cons] at hn
      obtain ⟨n, rfl⟩ : ∃ n', n = n' + 1 := ⟨n - 1, by omega⟩
      have hleft : s.child .left k.ref = treeRef l := by rw [RbState.child, hk]; rfl
      have hright : s.child .right k.ref = treeRef r := by rw [RbState.child, hk]; rfl
      rw [treeRef_node, rbAddDescend, if_pos (by simp), hleft, hright, hk]
      simp only
      -- the range meets this area, or is on one side of it
      by_cases hover : start < k.area.stop ∧ k.area.start < stop
      · exact .inl ⟨if_pos hover, k.area, by simp [areasOf_node], hover⟩
      rw [if_neg hover]
      by_cases hlow : start < k.area.start
      · rw [if_pos hlow]
        rcases ihl n (p := ⟨.left, c, k, r⟩ :: p) hl hsl (by omega) with
          ⟨hres, a, ha, hov⟩ | ⟨q, hq, hres, hbefore, hafter⟩
        · exact .inl ⟨hres, a, by simp [areasOf_node, ha], hov⟩
        · refine .inr ⟨q ++ [⟨.left, c, k, r⟩], by rw [plug_append, hq]; rfl, ?_, ?_, ?_⟩
          · rw [List.append_assoc]
            exact hres
          · intro a ha
            rw [areasBefore, before_append] at ha
            exact hbefore a ha
          -- the areas behind the free place are those of the subtree, this node and its other subtree
          · have hstop : stop ≤ k.area.start := by grind
            intro a ha
            rw [areasAfter, after_append, List.map_append, List.mem_append] at ha
            rcases ha with ha | ha
            · exact hafter a ha
            · have ha : a = k.area ∨ a ∈ areasOf r := by
                simpa [after, areasOf, eq_comm] using ha
              rcases ha with rfl | ha
              · exact ⟨hklt, hstop⟩
              · have := hkr a ha
                have := hsr.nonempty a ha
                exact ⟨this, by grind⟩
      · rw [if_neg hlow]
        rcases ihr n (p := ⟨.right, c, k, l⟩ :: p) hr hsr (by omega) with
          ⟨hres, a, ha, hov⟩ | ⟨q, hq, hres, hbefore, hafter⟩
        · exact .inl ⟨hres, a, by simp [areasOf_node, ha], hov⟩
        · refine .inr ⟨q ++ [⟨.right, c, k, l⟩], by rw [plug_append, hq]; rfl, ?_, ?_, ?_⟩
          · rw [List.append_assoc]
            exact hres
          -- in the same way, the areas in front of it
          · have hstart : k.area.stop ≤ start := by grind
            intro a ha
            rw [areasBefore, before_append, List.map_append, List.mem_append] at ha
            rcases ha with ha | ha
            · have ha : a ∈ areasOf l ∨ a = k.area := by
                simpa [before, areasOf, eq_comm, or_comm] using ha
              rcases ha with ha | rfl
              · have := hlk a ha
                have := hsl.nonempty a ha
                exact ⟨this, by grind⟩
              · exact ⟨hklt, hstart⟩
            · exact hbefore a ha
          · intro a ha
            rw [areasAfter, after_append] at ha
            exact hafter a (by simpa [after, areasAfter] using ha)

/-! ### Taking a node from the pool and hanging it -/

/-- Hanging a prepared red node at a leaf of a laid out tree. -/
theorem hang_tracks {s s₂ : RbState} {L : List Cell} {p : Path Cell} {k : Cell}
    (h : s.Tracks s L (plug p .leaf)) (hk : k.idx ∉ pathIdxs p)
    (hrec : s₂.mem k.ref = ⟨k.area, .red, parentOf p, .nil, .nil⟩)
    (hsame : ∀ x, x ≠ k.ref → s₂.mem x = s.mem x) (hroot : s₂.root = s.root) :
    (s₂.hang p k.ref).Tracks (s₂.hang p k.ref) (before p ++ [k] ++ after p)
      (plug p (.node .red .leaf k .leaf)) := by
  obtain ⟨hpath, -⟩ := h.focus
  have hndp := h.nodup_focus.2.1
  have hpath₂ : PathLaidOut s₂ p .nil := hpath.congr hroot fun i hi =>
    hsame _ fun hik => hk (Cell.pool_eq_ref.mp hik ▸ hi)
  refine RbState.Tracks.of_laidOut (t := .node .red .leaf k .leaf) ?_ (hpath₂.hang hndp k.ref) ⟨?_, trivial, trivial⟩ ?_
  · refine nodup_idxs_plug.mpr ⟨by simp [idxs], hndp, fun i hi => ?_⟩
    obtain rfl : i = k.idx := by simpa [idxs] using hi
    exact hk
  · rw [RbState.mem_hang (ne_pool_of_notMem hk), hrec]
    rfl
  · rw [RbState.mem_hang (by simp), hsame _ (by simp)]
    exact h.nilBlack

/-- The comparison of `rb_add` with the last node of the descent hangs the node at its leaf. -/
theorem hang_eq {s : RbState} {p : Path Cell} {start stop : U32} (z : Ref) (hlt : start < stop)
    (hmem : ∀ f ∈ p, (s.mem f.key.ref).area = f.key.area)
    (hbefore : ∀ a ∈ areasBefore p, a.start < a.stop ∧ a.stop ≤ start)
    (hafter : ∀ a ∈ areasAfter p, a.start < a.stop ∧ stop ≤ a.start) :
    (if parentOf p = .nil then s.setRoot z
      else if start < (s.mem (parentOf p)).area.start then s.setChild .left (parentOf p) z
      else s.setChild .right (parentOf p) z) = s.hang p z := by
  cases p with
  | nil => rfl
  | cons f p =>
      rw [parentOf, if_neg (by simp), hmem f (by simp)]
      obtain ⟨d, c, k, u⟩ := f
      cases d with
      | left =>
          have := hafter k.area (by simp [areasAfter, after])
          exact if_pos (by grind)
      | right =>
          have := hbefore k.area (by simp [areasBefore, before])
          exact if_neg (by grind)

/-- The records on a laid out path show the areas of its labels. -/
theorem PathLaidOut.area {s : RbState} {p : Path Cell} {x : Ref} (h : PathLaidOut s p x) :
    ∀ f ∈ p, (s.mem f.key.ref).area = f.key.area := by
  induction p generalizing x with
  | nil => simp
  | cons f p ih =>
      obtain ⟨hf, -, hp⟩ := h
      intro g hg
      rcases List.mem_cons.mp hg with rfl | hg
      · rw [hf, nodeOn_area]
      · exact ih hp g hg

/-- `pool_alloc` takes the first entry of the chain. -/
theorem poolAlloc_spec {s : RbState} {i : ℕ} {free : List ℕ}
    (h : FreeChain s.mem s.freeHead (i :: free)) :
    ∃ s', poolAlloc s = (s', some (.pool i)) ∧
      s'.mem (.pool i) = ⟨.zero, .red, .nil, .nil, .nil⟩ ∧
      (∀ x, x ≠ .pool i → s'.mem x = s.mem x) ∧ s'.root = s.root ∧ s'.count = s.count ∧
      FreeChain s.mem s'.freeHead free := by
  obtain ⟨hhead, htail⟩ := h
  refine ⟨{ s with
      freeHead := s.child .right (.pool i)
      mem := Function.update s.mem (.pool i) ⟨.zero, .red, .nil, .nil, .nil⟩ }, ?_,
    Function.update_self .., fun x hx => Function.update_of_ne hx .., rfl, rfl, htail⟩
  rw [poolAlloc, if_neg (by rw [hhead]; simp), hhead]

/-- A range between what lies before and after the leaf keeps the list separated. -/
theorem separated_around {p : Path Cell} {x : VmArea} (h : Separated (areasOf (plug p .leaf)))
    (hlt : x.start < x.stop) (hbefore : ∀ a ∈ areasBefore p, a.start < a.stop ∧ a.stop ≤ x.start)
    (hafter : ∀ a ∈ areasAfter p, a.start < a.stop ∧ x.stop ≤ a.start) :
    Separated (areasBefore p ++ x :: areasAfter p) := by
  have hlist : areasOf (plug p .leaf) = areasBefore p ++ areasAfter p := by
    simp [areasOf, areasBefore, areasAfter, toList_plug]
  rw [hlist] at h
  obtain ⟨hb, ha, hba⟩ := IntervalList.separated_append.mp h
  refine IntervalList.separated_append.mpr
    ⟨hb, IntervalList.separated_cons.mpr ⟨hlt, ha, fun b hb => (hafter b hb).2⟩, fun a ha b hb => ?_⟩
  rcases List.mem_cons.mp hb with rfl | hb
  exacts [(hbefore a ha).2, hba a ha b hb]

/-- **The insertion** of a range at the leaf the descent has found. -/
theorem rbAddNode_stores {s : RbState} {p : Path Cell} {i : ℕ} {free : List ℕ}
    {start stop : U32} (flags : U32) (name : NamePtr) (h : s.Stores (plug p .leaf) (i :: free))
    (hlt : start < stop) (hbefore : ∀ a ∈ areasBefore p, a.start < a.stop ∧ a.stop ≤ start)
    (hafter : ∀ a ∈ areasAfter p, a.start < a.stop ∧ stop ≤ a.start) :
    ∃ s' T, rbAddNode s start stop flags name (parentOf p) = some (s', 0) ∧ s'.Stores T free ∧
      areasOf T = areasBefore p ++ ⟨start, stop, flags, name⟩ :: areasAfter p := by
  obtain ⟨s₁, halloc, hrec₁, hsame₁, hroot₁, hcount₁, hfree₁⟩ := poolAlloc_spec h.chain
  set s₂ := s₁.modify (.pool i) fun n =>
    { n with area := ⟨start, stop, flags, name⟩, parent := parentOf p } with hs₂
  set k : Cell := ⟨i, ⟨start, stop, flags, name⟩⟩ with hk
  have hrec : s₂.mem k.ref = ⟨k.area, .red, parentOf p, .nil, .nil⟩ :=
    (RbState.mem_modify ..).trans ((if_pos rfl).trans (by rw [hrec₁]))
  have hsame : ∀ x, x ≠ k.ref → s₂.mem x = s.mem x := fun x hx =>
    (RbState.mem_modify ..).trans ((if_neg hx).trans (hsame₁ x hx))
  -- the new entry is not in the tree
  have hdisj := List.nodup_append'.mp h.nodup
  have hifree : i ∉ free := (List.nodup_cons.mp hdisj.2.1).1
  have hip : i ∉ pathIdxs p := fun hi =>
    hdisj.2.2 (mem_idxs_plug.mpr (.inr hi)) List.mem_cons_self
  have hfocus := h.tracks.focus
  have htracks := hang_tracks h.tracks hip hrec hsame hroot₁
  have hhang : (if parentOf p = .nil then s₂.setRoot (.pool i)
      else if start < (s₂.mem (parentOf p)).area.start then s₂.setChild .left (parentOf p) (.pool i)
      else s₂.setChild .right (parentOf p) (.pool i)) = s₂.hang p k.ref := by
    refine hang_eq k.ref hlt (fun f hf => ?_) hbefore hafter
    rw [hsame _ fun hfk => ?_]
    · exact hfocus.1.area f hf
    · exact hip (mem_pathIdxs_of_mem hf (.inl (Cell.ref_inj.mp hfk).symm))
  -- the repair
  obtain ⟨n, hbal⟩ := h.balanced
  obtain ⟨c, m, hleaf, hp⟩ := hbal.of_plug
  cases hleaf
  have hlen : p.length < rbFuel := by
    have h₁ := length_le_pathIdxs p
    have h₂ := (idxs_plug_perm p .leaf).length_eq
    have h₃ := h.length_lt
    rw [List.length_append, idxs, List.length_map] at h₂
    omega
  obtain ⟨s', T, hfix, hT, hTbal⟩ :=
    insertFixup_spec rbFuel htracks (.red .leaf .leaf) hp hlen
  have hlist : ((before p ++ [k] ++ after p).map Cell.area) =
      areasBefore p ++ ⟨start, stop, flags, name⟩ :: areasAfter p := by
    simp [areasBefore, areasAfter, hk]
  have hsame' : ∀ j ∈ free, s'.mem (.pool j) = s.mem (.pool j) := by
    intro j hj
    have hji : j ≠ i := fun h => hifree (h ▸ hj)
    have hjp : ∀ l ∈ pathIdxs p, Ref.pool j ≠ .pool l := by
      rintro l hl ⟨rfl⟩
      exact hdisj.2.2 (mem_idxs_plug.mpr (.inr hl)) (List.mem_cons_of_mem _ hj)
    rw [hT.outside, RbState.mem_hang hjp, hsame _ (by simpa [hk] using hji)]
    intro c hc hjc
    simp only [List.mem_append, List.mem_singleton] at hc
    rcases hc with (hc | rfl) | hc
    · exact hjp c.idx (List.mem_map_of_mem (List.mem_append_left _ hc)) hjc
    · exact hji (by simpa [hk] using hjc)
    · exact hjp c.idx (List.mem_map_of_mem (List.mem_append_right _ hc)) hjc
  refine ⟨{ s' with count := s'.count + 1 }, T, ?_, ?_, by rw [areasOf, hT.toList, hlist]⟩
  · rw [rbAddNode, halloc]
    simp only [← hs₂]
    rw [hhang]
    exact congrArg (Option.map _) hfix
  refine hT.stores rfl (fun _ _ => rfl) rfl hTbal ?_ ?_ ?_ ?_
  · rw [hlist]
    exact separated_around h.separated hlt hbefore hafter
  · have hfree : s'.freeHead = s₁.freeHead := by
      rw [hT.freeHead]
      cases p <;> rfl
    change FreeChain s'.mem s'.freeHead free
    rw [hfree]
    exact hfree₁.congr hsame'
  · refine List.Perm.trans ?_ h.partition
    rw [List.perm_iff_count]
    intro a
    simp only [idxs, toList_plug, List.map_append, List.count_append, List.map_cons, List.map_nil,
      List.count_cons, List.count_nil, ColorTree.toList_leaf, hk]
    omega
  · have hcount : s'.count = s.count := by
      rw [hT.count, ← hcount₁]
      cases p <;> rfl
    have hlen : s.count = (plug p .leaf).toList.length := h.count
    rw [toList_plug] at hlen
    simp only [hcount, hlen, List.length_append, List.length_cons, List.length_nil,
      ColorTree.toList_leaf]
    omega

/-- `rb_add` is `add` on the registry. -/
theorem rbAdd_stores {s : RbState} {T : ColorTree Cell} {free : List ℕ} {S : AreaSet}
    (h : s.Stores T free) (hS : areasOf T = S.areas) (start stop flags : U32) (name : NamePtr) :
    ∃ s' T' free', rbAdd s start stop flags name = some (s', (S.add ⟨start, stop, flags, name⟩).2) ∧
      s'.Stores T' free' ∧ areasOf T' = (S.add ⟨start, stop, flags, name⟩).1.areas := by
  have hcount : s.count = S.areas.length := by rw [h.count, ← hS, areasOf, List.length_map]
  -- a rejected call
  have hreject : ¬ S.Admits ⟨start, stop, flags, name⟩ →
      rbAdd s start stop flags name = some (s, -1) →
      ∃ s' T' free',
        rbAdd s start stop flags name = some (s', (S.add ⟨start, stop, flags, name⟩).2) ∧
        s'.Stores T' free' ∧ areasOf T' = (S.add ⟨start, stop, flags, name⟩).1.areas := by
    intro hadm heq
    rw [AreaSet.add_of_not_admits hadm]
    exact ⟨s, T, free, heq, h, hS⟩
  by_cases hfull : s.count ≥ rbMaxNodes
  · refine hreject (fun hadm => ?_) (by rw [rbAdd, if_pos hfull])
    have := hadm.1
    rw [← hcount] at this
    exact absurd hfull (not_le.mpr this)
  by_cases hlt : start ≥ stop
  · refine hreject (fun hadm => ?_) (by rw [rbAdd, if_neg hfull, if_pos hlt])
    exact absurd hadm.2.1.1 (BitVec.not_lt.mpr hlt)
  by_cases halign : ¬ start.PageAligned ∨ ¬ stop.PageAligned
  · refine hreject (fun hadm => ?_) (by rw [rbAdd, if_neg hfull, if_neg hlt, if_pos halign])
    exact halign.elim (fun h => h hadm.2.1.2.1) fun h => h hadm.2.1.2.2
  have hlt' : start < stop := BitVec.not_le.mp hlt
  rcases rbAddDescend_spec hlt' rbFuel (p := []) h.laidOut h.separated h.length_lt with
    ⟨hres, a, ha, hov⟩ | ⟨q, rfl, hres, hbefore, hafter⟩
  · rw [← h.root, parentOf] at hres
    refine hreject (fun hadm => ?_)
      (by rw [rbAdd, if_neg hfull, if_neg hlt, if_neg halign, hres])
    exact hadm.2.2 a (hS ▸ ha) (VmArea.overlaps_iff.mpr hov)
  · rw [← h.root, parentOf, List.append_nil] at hres
    have hareas : areasOf (plug q .leaf) = areasBefore q ++ areasAfter q := by
      simp [areasOf, areasBefore, areasAfter, toList_plug]
    have hadm : S.Admits ⟨start, stop, flags, name⟩ := by
      refine ⟨by rw [← hcount]; exact not_le.mp hfull, ⟨hlt', by tauto, by tauto⟩, ?_⟩
      intro b hb hov
      rw [← hS, hareas, List.mem_append] at hb
      rw [VmArea.overlaps_iff] at hov
      rcases hb with hb | hb
      · have := hbefore b hb
        grind
      · have := hafter b hb
        grind
    obtain ⟨i, free, rfl⟩ : ∃ i free', free = i :: free' := by
      cases free with
      | nil =>
          have hlen := h.length_add
          have hcount' := h.count
          simp only [List.length_nil] at hlen
          omega
      | cons i free => exact ⟨i, free, rfl⟩
    obtain ⟨s', T', heq, hs', hT'⟩ :=
      rbAddNode_stores flags name h hlt' hbefore hafter
    rw [AreaSet.add_of_admits hadm]
    refine ⟨s', T', free, ?_, hs', ?_⟩
    · rw [rbAdd, if_neg hfull, if_neg hlt, if_neg halign, hres]
      exact heq
    · refine IntervalList.Separated.eq_of_mem_iff hs'.separated (S.insert _ hadm).separated
        fun b => ?_
      rw [hT', AreaSet.areas_insert, AreaSet.mem_insertList, ← hS, hareas]
      simp only [List.mem_append, List.mem_cons]
      tauto

/-! ### Removal -/

/-- The search of `rb_remove` ends at the node that starts at `start`, or at `NIL` when no area
does. -/
theorem rbSearch_spec {s : RbState} {t : ColorTree Cell} (start : U32) (n : ℕ) :
    ∀ {par : Ref}, LaidOut s.mem par t → Separated (areasOf t) → t.toList.length < n →
      (rbSearch s start n (treeRef t) = some .nil ∧ ∀ a ∈ areasOf t, a.start ≠ start) ∨
      ∃ q c l k r, t = plug q (.node c l k r) ∧ k.area.start = start ∧
        rbSearch s start n (treeRef t) = some k.ref := by
  induction t generalizing n with
  | leaf =>
      intro par _ _ hn
      obtain ⟨n, rfl⟩ : ∃ n', n = n' + 1 := ⟨n - 1, by omega⟩
      exact .inl ⟨by simp [rbSearch], by simp [areasOf]⟩
  | node c l k r ihl ihr =>
      intro par h hsep hn
      obtain ⟨hk, hl, hr⟩ := h
      obtain ⟨hsl, hsr, hklt, hlk, hkr⟩ := separated_node hsep
      simp only [ColorTree.toList_node, List.length_append, List.length_cons] at hn
      obtain ⟨n, rfl⟩ : ∃ n', n = n' + 1 := ⟨n - 1, by omega⟩
      have hleft : s.child .left k.ref = treeRef l := by rw [RbState.child, hk]; rfl
      have hright : s.child .right k.ref = treeRef r := by rw [RbState.child, hk]; rfl
      -- the search compares the starts only: the areas of the other subtree lie on the far side of `k`
      rw [treeRef_node, rbSearch, if_pos (by simp), hleft, hright, hk]
      simp only
      by_cases heq : start = k.area.start
      · exact .inr ⟨[], c, l, k, r, rfl, heq.symm, if_pos heq⟩
      rw [if_neg heq]
      by_cases hlow : start < k.area.start
      · rw [if_pos hlow]
        rcases ihl n hl hsl (by omega) with ⟨hres, hno⟩ | ⟨q, c', l', k', r', hq, hstart, hres⟩
        · refine .inl ⟨hres, fun a ha => ?_⟩
          simp only [areasOf_node, List.mem_append, List.mem_cons] at ha
          rcases ha with ha | rfl | ha
          · exact hno a ha
          · exact fun h => heq h.symm
          · have := hkr a ha
            grind
        · exact .inr ⟨q ++ [⟨.left, c, k, r⟩], c', l', k', r', by rw [plug_append, ← hq]; rfl,
            hstart, hres⟩
      · rw [if_neg hlow]
        rcases ihr n hr hsr (by omega) with ⟨hres, hno⟩ | ⟨q, c', l', k', r', hq, hstart, hres⟩
        · refine .inl ⟨hres, fun a ha => ?_⟩
          simp only [areasOf_node, List.mem_append, List.mem_cons] at ha
          rcases ha with ha | rfl | ha
          · have := hlk a ha
            have := hsl.nonempty a ha
            intro h
            have : a.start < a.stop := this
            grind
          · exact fun h => heq h.symm
          · exact hno a ha
        · exact .inr ⟨q ++ [⟨.right, c, k, l⟩], c', l', k', r', by rw [plug_append, ← hq]; rfl,
            hstart, hres⟩

/-- Unlinking a node and repairing the tree, whichever colour was taken out. -/
theorem rbUnlink_fixed {s : RbState} {q : Path Cell} {c : Color} {l r : ColorTree Cell} {k : Cell}
    {free : List ℕ} (h : s.Stores (plug q (.node c l k r)) free) :
    ∃ x cx s₁ s₂ T', rbUnlink k.ref s = some (x, cx, s₁) ∧
      (if cx = .black then deleteFixup rbFuel x s₁ else some s₁) = some s₂ ∧
      s₁.Tracks s₂ (before q ++ (l.toList ++ r.toList) ++ after q) T' ∧
      (∃ n, Balanced T' .black n) ∧ s₁.freeHead = s.freeHead ∧ s₁.count = s.count ∧
      ∀ i ∉ idxs (plug q (.node c l k r)), s₁.mem (.pool i) = s.mem (.pool i) := by
  obtain ⟨n, hbal⟩ := h.balanced
  have hlen := h.length_lt
  have hlist := toList_plug q (.node c l k r)
  rw [hlist] at hlen
  simp only [List.length_append, ColorTree.toList_node, List.length_cons] at hlen
  obtain ⟨p', t', cx, s₁, hunlink, htracks, hnil, hfree, hcount, hsame, hred, hblack⟩ :=
    rbUnlink_spec h.tracks hbal (by omega)
  cases cx with
  | red => exact ⟨_, _, s₁, s₁, _, hunlink, rfl, htracks, hred rfl, hfree, hcount, hsame⟩
  | black =>
      have hp' : p'.length + 1 < rbFuel := by
        have h₁ := length_le_pathIdxs p'
        have h₂ := (idxs_plug_perm p' t').length_eq
        rw [List.length_append, idxs, List.length_map, htracks.toList] at h₂
        simp only [List.length_append] at h₂
        omega
      obtain ⟨s₂, T', hfix, hT', hbal'⟩ := deleteFixup_spec rbFuel htracks (hblack rfl) hnil hp'
      exact ⟨_, _, s₁, s₂, T', hunlink, hfix, hT', hbal', hfree, hcount, hsame⟩

/-- **The removal** of the node that starts at `start`. -/
theorem rbRemove_node {s : RbState} {q : Path Cell} {c : Color} {l r : ColorTree Cell} {k : Cell}
    {free : List ℕ} (h : s.Stores (plug q (.node c l k r)) free)
    (hsearch : rbSearch s k.area.start rbFuel s.root = some k.ref) :
    ∃ s' T', rbRemove s k.area.start = some (s', 0) ∧ s'.Stores T' (k.idx :: free) ∧
      areasOf T' = areasBefore q ++ (areasOf l ++ areasOf r) ++ areasAfter q := by
  obtain ⟨x, cx, s₁, s₂, T', hunlink, hfix, hT', hbal', hfree, hcount, hsame⟩ := rbUnlink_fixed h
  -- the node moves from the tree to the free chain
  have hidxs : (idxs (plug q (.node c l k r)) ++ free).Perm
      ((before q ++ (l.toList ++ r.toList) ++ after q).map Cell.idx ++ k.idx :: free) := by
    rw [List.perm_iff_count]
    intro a
    simp only [idxs, toList_plug, List.map_append, List.count_append, List.map_cons,
      List.count_cons, ColorTree.toList_node]
    omega
  have hdisj := List.nodup_append'.mp (hidxs.nodup_iff.mp h.nodup)
  have hk : ∀ k' ∈ before q ++ (l.toList ++ r.toList) ++ after q, k'.ref ≠ k.ref := by
    intro k' hk' heq
    refine hdisj.2.2 (List.mem_map_of_mem hk') ?_
    rw [Cell.ref_inj.mp heq]
    exact List.mem_cons_self
  have hkfree : k.idx ∉ free := (List.nodup_cons.mp hdisj.2.1).1
  have hareas : (before q ++ (l.toList ++ r.toList) ++ after q).map Cell.area =
      areasBefore q ++ (areasOf l ++ areasOf r) ++ areasAfter q := by
    simp [areasBefore, areasAfter, areasOf]
  -- freeing writes the freed node only, which the tree does not use any more
  have hmem : ∀ y, y ≠ k.ref → (poolFree s₂ k.ref).mem y = s₂.mem y := fun y hy =>
    (RbState.mem_setChild ..).trans (if_neg hy)
  refine ⟨{ poolFree s₂ k.ref with count := (poolFree s₂ k.ref).count - 1 }, T', ?_, ?_,
    by rw [areasOf, hT'.toList, hareas]⟩
  · rw [rbRemove, hsearch]
    simp only [Cell.ref_ne_nil, if_false, hunlink, hfix, Option.map_some]
  refine hT'.stores rfl (fun k' hk' => hmem _ (hk k' hk')) (hmem .nil (by simp)) hbal' ?_ ⟨rfl, ?_⟩
    (hidxs.symm.trans h.partition) ?_
  · -- what is left of a separated list is separated
    rw [hareas]
    refine h.separated.sublist ?_
    have hlist : areasOf (plug q (.node c l k r)) =
        areasBefore q ++ (areasOf l ++ k.area :: areasOf r) ++ areasAfter q := by
      simp [areasBefore, areasAfter, areasOf, toList_plug]
    rw [hlist]
    exact (((List.sublist_cons_self _ _).append_left _).append_left _).append_right _
  · -- the chain starts with the freed node
    have hright : ((poolFree s₂ k.ref).mem (.pool k.idx)).right = s.freeHead := by
      rw [← hfree, ← hT'.freeHead]
      have : (poolFree s₂ k.ref).mem k.ref = (s₂.mem k.ref).setChild .right s₂.freeHead :=
        (RbState.mem_setChild ..).trans (if_pos rfl)
      exact congrArg RbNode.right this
    change FreeChain (poolFree s₂ k.ref).mem ((poolFree s₂ k.ref).mem (.pool k.idx)).right free
    rw [hright]
    refine h.chain.congr fun j hj => ?_
    have hjk : Ref.pool j ≠ k.ref := fun heq => hkfree (Cell.pool_eq_ref.mp heq ▸ hj)
    have hjT : j ∉ idxs (plug q (.node c l k r)) := fun hjT =>
      (List.nodup_append'.mp h.nodup).2.2 hjT hj
    rw [hmem _ hjk, hT'.outside, hsame j hjT]
    intro k' hk' heq
    refine hdisj.2.2 (List.mem_map_of_mem hk') (List.mem_cons_of_mem _ ?_)
    exact Cell.pool_eq_ref.mp heq ▸ hj
  · have hcount' : (poolFree s₂ k.ref).count = s.count := hT'.count.trans hcount
    have hlen : s.count = (plug q (.node c l k r)).toList.length := h.count
    rw [toList_plug] at hlen
    simp only [hcount', hlen, List.length_append, List.length_cons, ColorTree.toList_node]
    omega

/-- `rb_remove` is `remove` on the registry. -/
theorem rbRemove_stores {s : RbState} {T : ColorTree Cell} {free : List ℕ} {S : AreaSet}
    (h : s.Stores T free) (hS : areasOf T = S.areas) (start : U32) :
    ∃ s' T' free', rbRemove s start = some (s', (S.remove start).2) ∧ s'.Stores T' free' ∧
      areasOf T' = (S.remove start).1.areas := by
  rcases rbSearch_spec start rbFuel h.laidOut h.separated h.length_lt with
    ⟨hres, hno⟩ | ⟨q, c, l, k, r, rfl, rfl, hres⟩
  · rw [← h.root] at hres
    rw [AreaSet.remove_of_forall_ne fun a ha => hno a (hS ▸ ha)]
    exact ⟨s, T, free, by rw [rbRemove, hres]; rfl, h, hS⟩
  · rw [← h.root] at hres
    obtain ⟨s', T', heq, hs', hT'⟩ := rbRemove_node h hres
    have hlist : areasOf (plug q (.node c l k r)) =
        areasBefore q ++ areasOf l ++ k.area :: (areasOf r ++ areasAfter q) := by
      simp [areasBefore, areasAfter, areasOf, toList_plug]
    have hmem : k.area ∈ S.areas := by rw [← hS, hlist]; simp
    rw [AreaSet.remove_of_mem hmem]
    refine ⟨s', T', _, heq, hs', ?_⟩
    have hsep := h.separated
    rw [hlist] at hsep
    rw [hT', AreaSet.areas_erase, ← hS, hlist, AreaSet.filter_start_ne hsep]
    simp

/-! ### Whole runs -/

/-- The state stores a tree that lists the areas of the registry. -/
def RbState.Lists (s : RbState) (S : AreaSet) : Prop :=
  ∃ T free, s.Stores T free ∧ areasOf T = S.areas

/-- `rb_init` lists the empty registry. -/
theorem rbInit_lists (s₀ : RbState) : (rbInit s₀).Lists AreaSet.empty :=
  ⟨.leaf, _, rbInit_stores s₀, rfl⟩

/-- One call keeps the tree and the registry together and is answered alike. -/
theorem rbOps_call_lists {s : RbState} {S : AreaSet} (h : s.Lists S) (c : VmaCall) :
    ∃ s' S' o, rbOps.call s c = some (s', o) ∧ AreaSet.machine.step S c = some (S', o) ∧
      s'.Lists S' := by
  obtain ⟨T, free, hs, hT⟩ := h
  cases c with
  | add start stop flags name =>
      obtain ⟨s', T', free', heq, hs', hT'⟩ := rbAdd_stores hs hT start stop flags name
      exact ⟨s', _, _, congrArg (Option.map _) heq, rfl, T', free', hs', hT'⟩
  | remove start =>
      obtain ⟨s', T', free', heq, hs', hT'⟩ := rbRemove_stores hs hT start
      exact ⟨s', _, _, congrArg (Option.map _) heq, rfl, T', free', hs', hT'⟩
  | find addr =>
      exact ⟨s, S, _, congrArg (Option.map _) (rbFind_stores hs hT addr), rfl, T, free, hs, hT⟩
  | count =>
      refine ⟨s, S, _, rfl, ?_, T, free, hs, hT⟩
      have hcount : s.count = S.areas.length := by rw [hs.count, ← hT, areasOf, List.length_map]
      simp only [rbOps, rbCount, hcount]
      rfl

/-- **The red-black tree refines the registry.** -/
theorem rbOps_refines : rbOps.Refines := by
  intro s₀ calls
  obtain ⟨s, S, os, hs, hS, -⟩ := Machine.runFrom_simulation (M := rbOps.machine s₀)
    (N := AreaSet.machine) (R := RbState.Lists) (fun s S c h => rbOps_call_lists h c) calls
    _ _ (rbInit_lists s₀)
  exact ⟨s, S, os, hs, hS⟩

end Microkernel.Vma
