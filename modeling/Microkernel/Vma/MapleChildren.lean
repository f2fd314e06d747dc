import Microkernel.Vma.MapleNode

/-! # Internal nodes of the maple tree

The descent into a child, the insertion of a key with the node behind it, and the split of a full node,
which also tells half of the children their new parent.

* **`findChild`** — the child whose range has the address is found, by the keys in front of it and behind
  it.
* **`internalInsertAt_spec`** — a key and the child behind it are put in, and everything behind them moves
  up.
* **`splitInternal_spec`** — a full node keeps its first half; the second half goes to the new node, and
  the key between them is given to the caller, which puts it one level up.
-/

namespace Microkernel.Vma

open Function (update)

/-! ### The child for an address -/

section FindChild
variable {n : MapleNode} {l₁ l₂ : List (ℕ × ℕ)} {c : ℕ × ℕ}

/-- **`internal_find_child` finds the child** whose keys in front are at the address or below, and whose
key behind, if it has one, is above. -/
theorem MapleNode.HasChildren.findChild (h : n.HasChildren (l₁ ++ c :: l₂)) {addr : U32}
    (hlow : ∀ d ∈ l₁, d.2 ≤ addr.toNat) (hhigh : l₂ ≠ [] → addr.toNat < c.2) :
    internalFindChild mapleNodeSlots n addr = .ok l₁.length := by
  have hlen : (l₁ ++ c :: l₂).length = l₁.length + l₂.length + 1 := by
    rw [List.length_append, List.length_cons, Nat.add_assoc]
  have hnr := h.nrEntries
  have hle := h.length_le
  have hlast : n.lastEntry = l₁.length + l₂.length := by
    rw [MapleNode.lastEntry_eq (by omega)]
    omega
  -- the keys in front are passed
  have hfrom : ∀ k i, i + k = l₁.length → internalFindChildFrom mapleNodeSlots n addr (k + l₂.length) i =
      .ok l₁.length := by
    intro k
    induction k with
    | zero =>
      rintro i hi
      cases hl₂ : l₂ with
      | nil =>
        rw [List.length_nil, internalFindChildFrom, hlast, hl₂]
        rfl
      | cons d l₃ =>
        have hc : (l₁ ++ c :: l₂)[i]? = some c := by
          rw [show i = l₁.length by omega]
          simp
        have hkey := h.key hc (by rw [hlen, hl₂, List.length_cons]; omega)
        have hlt : addr < n.pivots i := by
          rw [BitVec.lt_def, hkey]
          exact hhigh (by simp [hl₂])
        have hi' : i < mapleNodeSlots := by omega
        rw [List.length_cons, show 0 + (l₃.length + 1) = l₃.length + 1 by omega, internalFindChildFrom,
          MapleNode.getPivot_ok hi', MapleM.ok_bind, if_pos hlt, show i = l₁.length by omega]
    | succ k ih =>
      intro i hi
      have hlt : i < l₁.length := by omega
      have hd : (l₁ ++ c :: l₂)[i]? = some l₁[i] := by
        rw [List.getElem?_append_left hlt, List.getElem?_eq_getElem hlt]
      have hkey := h.key hd (by omega)
      have hge : ¬ addr < n.pivots i := by
        rw [BitVec.lt_def, hkey, not_lt]
        exact hlow _ (List.getElem_mem hlt)
      have hi' : i < mapleNodeSlots := by omega
      rw [show k + 1 + l₂.length = k + l₂.length + 1 by omega, internalFindChildFrom,
        MapleNode.getPivot_ok hi', MapleM.ok_bind, if_neg hge]
      exact ih (i + 1) (by omega)
  rw [internalFindChild, hlast]
  exact hfrom l₁.length 0 (Nat.zero_add _)

end FindChild

/-! ### The insertion of a child -/

section Insert
variable {s : MapleState} {p d c hi : ℕ} {l₁ l₂ : List (ℕ × ℕ)} {key : U32}

/-- One element of a list is replaced by two. -/
theorem getElem?_replace {α : Type*} {l₁ l₂ : List α} (x : α) {a b e : α} {i : ℕ}
    (h : (l₁ ++ a :: b :: l₂)[i]? = some e) :
    i < l₁.length ∧ (l₁ ++ x :: l₂)[i]? = some e ∨ i = l₁.length ∧ e = a ∨ i = l₁.length + 1 ∧ e = b ∨
      l₁.length + 1 < i ∧ (l₁ ++ x :: l₂)[i - 1]? = some e := by
  rcases Nat.lt_trichotomy i l₁.length with hlt | rfl | hgt
  · rw [List.getElem?_append_left hlt] at h ⊢
    exact .inl ⟨hlt, h⟩
  · rw [List.getElem?_append_right le_rfl, Nat.sub_self] at h
    exact .inr (.inl ⟨rfl, (Option.some.inj h).symm⟩)
  · obtain ⟨k, rfl⟩ := Nat.exists_eq_add_of_lt hgt
    rw [List.getElem?_append_right (by omega), show l₁.length + k + 1 - l₁.length = k + 1 by omega] at h
    cases k with
    | zero => exact .inr (.inr (.inl ⟨rfl, (Option.some.inj h).symm⟩))
    | succ k =>
      refine .inr (.inr (.inr ⟨by omega, ?_⟩))
      rw [List.getElem?_append_right (by omega),
        show l₁.length + (k + 1) + 1 - 1 - l₁.length = k + 1 by omega]
      exact h

/-- **`internal_insert_at`** puts a key behind a child and a new child behind the key. -/
theorem internalInsertAt_spec (h : (s.nodes p).HasChildren (l₁ ++ (c, hi) :: l₂))
    (hlen : (l₁ ++ (c, hi) :: l₂).length < mapleNodeSlots) (hd : d ≠ p) :
    ∃ nodes', internalInsertAt mapleNodeSlots p l₁.length key d s = .ok { s with nodes := nodes' } ∧
      (nodes' p).HasChildren (l₁ ++ (c, key.toNat) :: (d, hi) :: l₂) ∧
      (nodes' p).parent = (s.nodes p).parent ∧ nodes' d = { s.nodes d with parent := some p } ∧
      ∀ m, m ≠ p → m ≠ d → nodes' m = s.nodes m := by
  have hnr := h.nrEntries
  have hsize : (l₁ ++ (c, hi) :: l₂).length = l₁.length + l₂.length + 1 := by
    rw [List.length_append, List.length_cons, Nat.add_assoc]
  have hlast : (s.nodes p).lastEntry = l₁.length + l₂.length := by
    rw [MapleNode.lastEntry_eq (by omega)]
    omega
  obtain ⟨n', hn'⟩ : ∃ n' : MapleNode, n' = { s.nodes p with
      pivots := update (shiftedUp (s.nodes p).pivots l₁.length (l₁.length + l₂.length)) l₁.length key
      slots := update (shiftedUp (s.nodes p).slots (l₁.length + 1) (s.nodes p).nrEntries.toNat)
        (l₁.length + 1) (some d) } := ⟨_, rfl⟩
  refine ⟨update (update (update s.nodes p n') d { s.nodes d with parent := some p }) p
    { n' with nrEntries := n'.nrEntries + 1#8 }, ?_, ?_, ?_, ?_, fun m hm hmd => ?_⟩
  · rw [internalInsertAt, hlast, internalShiftPivots_eq (by omega) (by omega), MapleM.ok_bind,
      MapleNode.setPivot_ok (by omega), MapleM.ok_bind]
    dsimp only
    rw [internalShiftChildren_eq (by omega) (by omega), MapleM.ok_bind, MapleNode.setSlot_ok (by omega),
      MapleM.ok_bind]
    simp only [MapleState.setNode, MapleM.pure_eq, Function.update_of_ne hd, Function.update_of_ne hd.symm,
      Function.update_self, hn']
  · rw [Function.update_self]
    refine ⟨?_, ?_, ?_, ?_, fun {i e} he => ?_, fun {i e} he hnext => ?_⟩
    · rw [hn']
      exact h.isLeaf
    · have hplus : (n'.nrEntries + 1#8).toNat = (s.nodes p).nrEntries.toNat + 1 := by
        rw [hn']
        dsimp only
        have := mapleNodeSlots_eq
        bv_omega
      dsimp only
      rw [hplus, hnr, hsize, List.length_append, List.length_cons, List.length_cons]
      omega
    · simp only [List.length_append, List.length_cons]
      omega
    · rw [List.length_append, List.length_cons, List.length_cons]
      omega
    · -- the children
      show n'.slots i = some e.1
      rw [hn']
      dsimp only
      rcases getElem?_replace (c, hi) he with ⟨hlt, he⟩ | ⟨rfl, rfl⟩ | ⟨rfl, rfl⟩ | ⟨hgt, he⟩
      · rw [Function.update_of_ne (by omega)]
        unfold shiftedUp
        rw [if_neg (by omega)]
        exact h.child he
      · rw [Function.update_of_ne (by omega)]
        unfold shiftedUp
        rw [if_neg (by omega)]
        exact h.child (e := (c, hi)) (by simp)
      · rw [Function.update_self]
      · have hle := (List.getElem?_eq_some_iff.mp he).1
        rw [Function.update_of_ne (by omega)]
        unfold shiftedUp
        rw [if_pos (by omega)]
        exact h.child he
    · -- the keys
      show (n'.pivots i).toNat = e.2
      rw [hn']
      dsimp only
      rw [List.length_append, List.length_cons, List.length_cons] at hnext
      rcases getElem?_replace (c, hi) he with ⟨hlt, he⟩ | ⟨rfl, rfl⟩ | ⟨rfl, rfl⟩ | ⟨hgt, he⟩
      · rw [Function.update_of_ne (by omega)]
        unfold shiftedUp
        rw [if_neg (by omega)]
        exact h.key he (by omega)
      · rw [Function.update_self]
      · rw [Function.update_of_ne (by omega)]
        unfold shiftedUp
        rw [if_pos (by omega)]
        exact h.key (e := (c, hi)) (by simp) (by omega)
      · rw [Function.update_of_ne (by omega)]
        unfold shiftedUp
        rw [if_pos (by omega)]
        exact h.key he (by omega)
  · rw [Function.update_self, hn']
  · rw [Function.update_of_ne hd, Function.update_self]
  · rw [Function.update_of_ne hm, Function.update_of_ne hmd, Function.update_of_ne hm]

end Insert

/-! ### The split of a full node -/

section Split
variable {s : MapleState} {p q : ℕ}

/-- The second loop of `split_internal`: the moved children have a new parent. -/
theorem splitMoveChildren_spec (hpq : p ≠ q) {k i : ℕ} (hk : splitMid + i + k ≤ mapleNodeSlots)
    (hchild : ∀ j c, i ≤ j → j < i + k → (s.nodes p).slots (splitMid + j) = some c → c ≠ p ∧ c ≠ q) :
    ∃ nodes', splitMoveChildren p q k i s = .ok { s with nodes := nodes' } ∧
      nodes' p = { s.nodes p with slots := cleared (s.nodes p).slots (splitMid + i) k none } ∧
      nodes' q = { s.nodes q with
        slots := copied (s.nodes q).slots (s.nodes p).slots splitMid i k } ∧
      ∀ m, m ≠ p → m ≠ q →
        ((∃ j, i ≤ j ∧ j < i + k ∧ (s.nodes p).slots (splitMid + j) = some m) →
          nodes' m = { s.nodes m with parent := some q }) ∧
        ((∀ j, i ≤ j → j < i + k → (s.nodes p).slots (splitMid + j) ≠ some m) →
          nodes' m = s.nodes m) := by
  induction k generalizing i s with
  | zero =>
    refine ⟨s.nodes, rfl, ?_, ?_, fun m _ _ => ⟨fun ⟨j, h₁, h₂, _⟩ => by omega, fun _ => rfl⟩⟩
    · rw [cleared_zero]
    · rw [copied_zero]
  | succ k ih =>
    -- one round
    obtain ⟨child, hslot⟩ : ∃ child, (s.nodes p).slots (splitMid + i) = child := ⟨_, rfl⟩
    have hne : ∀ c, child = some c → c ≠ p ∧ c ≠ q := fun c hc =>
      hchild i c le_rfl (by omega) (hslot.trans hc)
    obtain ⟨nodes₁, hstep, hp, hq, hset, hrest⟩ : ∃ nodes₁ : ℕ → MapleNode,
        splitMoveChildren p q (k + 1) i s = splitMoveChildren p q k (i + 1) { s with nodes := nodes₁ } ∧
        nodes₁ p = { s.nodes p with slots := update (s.nodes p).slots (splitMid + i) none } ∧
        nodes₁ q = { s.nodes q with slots := update (s.nodes q).slots i child } ∧
        (∀ c, child = some c → nodes₁ c = { s.nodes c with parent := some q }) ∧
        ∀ m, m ≠ p → m ≠ q → child ≠ some m → nodes₁ m = s.nodes m := by
      rw [splitMoveChildren, MapleNode.getSlot_ok (by omega), MapleM.ok_bind,
        MapleNode.setSlot_ok (by omega), MapleM.ok_bind, hslot]
      cases child with
      | none =>
        dsimp only
        rw [MapleNode.setSlot_ok (by omega), MapleM.ok_bind]
        refine ⟨_, rfl, ?_, ?_, fun c hc => absurd hc (by simp), fun m hm hmq _ => ?_⟩
        · simp only [MapleState.setNode, Function.update_self, Function.update_of_ne hpq]
        · simp only [MapleState.setNode, Function.update_self, Function.update_of_ne hpq.symm]
        · simp only [MapleState.setNode, Function.update_of_ne hm, Function.update_of_ne hmq]
      | some c =>
        obtain ⟨hcp, hcq⟩ := hne c rfl
        dsimp only
        rw [MapleNode.setSlot_ok (by omega), MapleM.ok_bind]
        refine ⟨_, rfl, ?_, ?_, fun d hd => ?_, fun m hm hmq hmc => ?_⟩
        · simp only [MapleState.setNode, Function.update_self, Function.update_of_ne hcp.symm,
            Function.update_of_ne hpq]
        · simp only [MapleState.setNode, Function.update_self, Function.update_of_ne hcq.symm,
            Function.update_of_ne hpq.symm]
        · obtain rfl := Option.some.inj hd
          simp only [MapleState.setNode, Function.update_self, Function.update_of_ne hcp,
            Function.update_of_ne hcq]
        · have hmc' : m ≠ c := fun heq => hmc (by rw [heq])
          simp only [MapleState.setNode, Function.update_of_ne hm, Function.update_of_ne hmq,
            Function.update_of_ne hmc']
    -- the slots that are left are those of before
    have hlater : ∀ j, i + 1 ≤ j → (nodes₁ p).slots (splitMid + j) = (s.nodes p).slots (splitMid + j) := by
      intro j hj
      rw [hp]
      exact Function.update_of_ne (by omega) ..
    obtain ⟨nodes', hres, hp', hq', hm'⟩ := @ih { s with nodes := nodes₁ } (i + 1) (by omega)
      fun j c h₁ h₂ hc => hchild j c (by omega) (by omega) ((hlater j h₁).symm.trans hc)
    dsimp only at hp' hq' hm'
    refine ⟨nodes', hstep.trans hres, ?_, ?_, fun m hm hmq => ⟨fun ⟨j, h₁, h₂, hj⟩ => ?_, fun hno => ?_⟩⟩
    · rw [hp', hp]
      dsimp only
      rw [← Nat.add_assoc, cleared_succ]
    · rw [hq', hp, hq]
      dsimp only
      rw [← hslot, copied_succ]
    · -- the child of this round, or one of a later round
      by_cases hlast : ∃ j, i + 1 ≤ j ∧ j < i + 1 + k ∧ (nodes₁ p).slots (splitMid + j) = some m
      · rw [(hm' m hm hmq).1 hlast]
        dsimp only
        by_cases hc : child = some m
        · rw [hset m hc]
        · rw [hrest m hm hmq hc]
      · have hc : child = some m := by
          by_contra hc
          have hji : j ≠ i := by
            rintro rfl
            exact hc (hslot.symm.trans hj)
          exact hlast ⟨j, by omega, by omega, (hlater j (by omega)).trans hj⟩
        rw [(hm' m hm hmq).2 fun j h₁ h₂ hj => hlast ⟨j, h₁, h₂, hj⟩]
        exact hset m hc
    · rw [(hm' m hm hmq).2 fun j h₁ h₂ hj =>
        hno j (by omega) (by omega) ((hlater j h₁).symm.trans hj)]
      exact hrest m hm hmq (hslot ▸ hno i le_rfl (by omega))

/-- The first half of the children of a full node. -/
theorem MapleNode.HasChildren.firstHalf {n n' : MapleNode} {l : List (ℕ × ℕ)} (h : n.HasChildren l)
    (hfull : l.length = mapleNodeSlots) (hleaf : n'.isLeaf = false) (hnr : n'.nrEntries.toNat = splitMid)
    (hslots : ∀ i < splitMid, n'.slots i = n.slots i)
    (hpivots : ∀ i, i + 1 < splitMid → n'.pivots i = n.pivots i) :
    n'.HasChildren (l.take splitMid) := by
  have hlen : (l.take splitMid).length = splitMid := by
    rw [List.length_take, hfull]
    rfl
  refine ⟨hleaf, hnr.trans hlen.symm, by rw [hlen]; decide, by rw [hlen]; decide, fun {i e} he => ?_,
    fun {i e} he hnext => ?_⟩
  · have hi := (List.getElem?_eq_some_iff.mp he).1
    rw [hlen] at hi
    rw [List.getElem?_take_of_lt hi] at he
    exact (hslots i hi).trans (h.child he)
  · rw [hlen] at hnext
    rw [List.getElem?_take_of_lt (by omega)] at he
    rw [hpivots i hnext]
    have hmid : splitMid < l.length := hfull ▸ by decide
    exact h.key he (by omega)

/-- And the second half, moved to the front. -/
theorem MapleNode.HasChildren.secondHalf {n n' : MapleNode} {l : List (ℕ × ℕ)} (h : n.HasChildren l)
    (hfull : l.length = mapleNodeSlots) (hleaf : n'.isLeaf = false) (hnr : n'.nrEntries.toNat = splitMid)
    (hslots : ∀ i < splitMid, n'.slots i = n.slots (splitMid + i))
    (hpivots : ∀ i, i + 1 < splitMid → n'.pivots i = n.pivots (splitMid + i)) :
    n'.HasChildren (l.drop splitMid) := by
  have hlen : (l.drop splitMid).length = splitMid := by
    rw [List.length_drop, hfull]
    rfl
  refine ⟨hleaf, hnr.trans hlen.symm, by rw [hlen]; decide, by rw [hlen]; decide, fun {i e} he => ?_,
    fun {i e} he hnext => ?_⟩
  · have hi := (List.getElem?_eq_some_iff.mp he).1
    rw [hlen] at hi
    rw [List.getElem?_drop] at he
    exact (hslots i hi).trans (h.child he)
  · rw [hlen] at hnext
    rw [List.getElem?_drop] at he
    rw [hpivots i hnext]
    have hmid : splitMid + splitMid = l.length := hfull ▸ rfl
    exact h.key he (by omega)

/-- The children that move are those behind the middle. -/
theorem MapleNode.HasChildren.mem_secondHalf {n : MapleNode} {l : List (ℕ × ℕ)} (h : n.HasChildren l)
    (hfull : l.length = mapleNodeSlots) (m : ℕ) :
    m ∈ (l.drop splitMid).map Prod.fst ↔
      ∃ j, 0 ≤ j ∧ j < 0 + 5 ∧ n.slots (splitMid + j) = some m := by
  have hlen : l.length = splitMid + 5 := hfull
  rw [List.mem_map]
  constructor
  · rintro ⟨d, hd, rfl⟩
    obtain ⟨j, hj⟩ := List.getElem?_of_mem hd
    have hlt := (List.getElem?_eq_some_iff.mp hj).1
    rw [List.length_drop] at hlt
    rw [List.getElem?_drop] at hj
    exact ⟨j, Nat.zero_le j, by omega, h.child hj⟩
  · rintro ⟨j, -, hj, hjm⟩
    rw [h.child (List.getElem?_eq_getElem (by omega))] at hjm
    obtain rfl := Option.some.inj hjm
    refine ⟨_, ?_, rfl⟩
    rw [List.mem_iff_getElem?]
    exact ⟨j, by rw [List.getElem?_drop, List.getElem?_eq_getElem (by omega)]⟩

/-- The nodes after the first loop of `split_internal`: the keys of the second half have moved. -/
def pivotsMoved (s : MapleState) (p q : ℕ) : ℕ → MapleNode :=
  update (update (update s.nodes q { s.nodes q with isLeaf := false }) p
    { s.nodes p with pivots := cleared (s.nodes p).pivots (splitMid + 0) 4 0#32 }) q
    { s.nodes q with
      isLeaf := false
      pivots := copied (s.nodes q).pivots (s.nodes p).pivots splitMid 0 4 }

/-- **`split_internal` on a full node**, from its second loop on. -/
theorem splitInternal_eq (hnr : (s.nodes p).nrEntries = 10#8) (hpq : p ≠ q) {nodes' : ℕ → MapleNode}
    (hmove : splitMoveChildren p q 5 0 { s with nodes := pivotsMoved s p q } =
      .ok { s with nodes := nodes' }) :
    splitInternal mapleNodeSlots p q s = .ok ({ s with
      nodes := update (update (update nodes' q { nodes' q with nrEntries := 5#8 }) p
        { nodes' p with nrEntries := BitVec.ofNat 8 splitMid }) p
        { nodes' p with
          nrEntries := BitVec.ofNat 8 splitMid
          pivots := update (nodes' p).pivots (splitMid - 1) 0#32 } }, (s.nodes p).pivots (splitMid - 1)) := by
  have hp : (s.setNode q { s.nodes q with isLeaf := false }).nodes p = s.nodes p :=
    Function.update_of_ne hpq ..
  have hq : (s.setNode q { s.nodes q with isLeaf := false }).nodes q =
      { s.nodes q with isLeaf := false } := Function.update_self ..
  have hkeys : ((10#8).setWidth 32 - 1#32 - BitVec.ofNat 32 splitMid).toNat = 4 := by decide
  have hchildren : ((10#8).setWidth 32 - BitVec.ofNat 32 splitMid).toNat = 5 := by decide
  rw [splitInternal]
  dsimp only
  rw [hp, MapleNode.getPivot_ok (by decide), MapleM.ok_bind, hnr, hkeys, splitMovePivots_eq (by decide),
    MapleM.ok_bind, hq]
  dsimp only
  rw [hchildren]
  unfold pivotsMoved at hmove
  simp only [MapleState.setNode]
  rw [hmove, MapleM.ok_bind]
  dsimp only
  rw [Function.update_self, Function.update_of_ne hpq, MapleNode.setPivot_ok (by decide)]
  rfl

/-- **`split_internal` cuts a full node in halves**; the key between them goes up. -/
theorem splitInternal_spec {l : List (ℕ × ℕ)} (h : (s.nodes p).HasChildren l)
    (hfull : l.length = mapleNodeSlots) (hpq : p ≠ q) (hchild : ∀ e ∈ l, e.1 ≠ p ∧ e.1 ≠ q) :
    ∃ nodes' key e, splitInternal mapleNodeSlots p q s = .ok ({ s with nodes := nodes' }, key) ∧
      l[splitMid - 1]? = some e ∧ key.toNat = e.2 ∧
      (nodes' p).HasChildren (l.take splitMid) ∧ (nodes' q).HasChildren (l.drop splitMid) ∧
      (nodes' p).parent = (s.nodes p).parent ∧ (nodes' q).parent = (s.nodes q).parent ∧
      ∀ m, m ≠ p → m ≠ q →
        (m ∈ (l.drop splitMid).map Prod.fst → nodes' m = { s.nodes m with parent := some q }) ∧
        (m ∉ (l.drop splitMid).map Prod.fst → nodes' m = s.nodes m) := by
  have hlen : l.length = 10 := hfull
  have hmid : splitMid = 5 := rfl
  have hnr : (s.nodes p).nrEntries = 10#8 := by
    apply BitVec.eq_of_toNat_eq
    rw [h.nrEntries, hlen]
    rfl
  obtain ⟨e, he⟩ : ∃ e, l[splitMid - 1]? = some e := ⟨_, List.getElem?_eq_getElem (by omega)⟩
  -- the state in front of the second loop
  have hp₂ : pivotsMoved s p q p =
      { s.nodes p with pivots := cleared (s.nodes p).pivots (splitMid + 0) 4 0#32 } := by
    rw [pivotsMoved, Function.update_of_ne hpq, Function.update_self]
  have hq₂ : pivotsMoved s p q q = { s.nodes q with
      isLeaf := false
      pivots := copied (s.nodes q).pivots (s.nodes p).pivots splitMid 0 4 } := Function.update_self ..
  have hm₂ : ∀ m, m ≠ p → m ≠ q → pivotsMoved s p q m = s.nodes m := by
    intro m hm hmq
    rw [pivotsMoved, Function.update_of_ne hmq, Function.update_of_ne hm, Function.update_of_ne hmq]
  have hslots₂ : (pivotsMoved s p q p).slots = (s.nodes p).slots := by rw [hp₂]
  obtain ⟨nodes', hres, hp', hq', hm'⟩ :=
    @splitMoveChildren_spec { s with nodes := pivotsMoved s p q } p q hpq 5 0 (by decide) (by
      intro j c _ hj hc
      dsimp only at hc
      rw [hslots₂, h.child (List.getElem?_eq_getElem (by omega))] at hc
      obtain rfl := Option.some.inj hc
      exact hchild _ (List.getElem_mem _))
  dsimp only at hp' hq' hm'
  refine ⟨_, _, e, splitInternal_eq hnr hpq hres, he, h.key he (by omega), ?_, ?_, ?_, ?_,
    fun m hm hmq => ?_⟩
  · rw [Function.update_self]
    refine h.firstHalf hfull ?_ rfl (fun i hi => ?_) fun i hi => ?_
    · show (nodes' p).isLeaf = false
      rw [hp', hp₂]
      exact h.isLeaf
    · show (nodes' p).slots i = _
      rw [hp', hslots₂]
      exact if_neg (by omega)
    · show update (nodes' p).pivots (splitMid - 1) 0#32 i = _
      rw [Function.update_of_ne (by omega), hp', hp₂]
      exact if_neg (by omega)
  · rw [Function.update_of_ne hpq.symm, Function.update_of_ne hpq.symm, Function.update_self]
    refine h.secondHalf hfull ?_ rfl (fun i hi => ?_) fun i hi => ?_
    · show (nodes' q).isLeaf = false
      rw [hq', hq₂]
    · show (nodes' q).slots i = _
      rw [hq', hslots₂]
      exact if_pos (by omega)
    · show (nodes' q).pivots i = _
      rw [hq', hq₂]
      exact if_pos (by omega)
  · rw [Function.update_self]
    show (nodes' p).parent = _
    rw [hp', hp₂]
  · rw [Function.update_of_ne hpq.symm, Function.update_of_ne hpq.symm, Function.update_self]
    show (nodes' q).parent = _
    rw [hq', hq₂]
  · rw [Function.update_of_ne hm, Function.update_of_ne hm, Function.update_of_ne hmq, h.mem_secondHalf hfull,
      ← hslots₂]
    obtain ⟨hset, hsame⟩ := hm' m hm hmq
    rw [hm₂ m hm hmq] at hset hsame
    exact ⟨hset, fun hno => hsame fun j h₁ h₂ hj => hno ⟨j, h₁, h₂, hj⟩⟩

end Split

end Microkernel.Vma
