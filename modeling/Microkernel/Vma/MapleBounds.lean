import Microkernel.Vma.MapleNode
import Mathlib.Data.List.Nodup
import Mathlib.Data.List.InsertIdx

/-! # Where the maple tree overruns its key array

A leaf stores one key for each area, and has one key place less than places for areas. As long as no
leaf holds more than nine areas all indices are in range; the tenth insertion into a leaf writes the
key past the array. Until then the tree is a single leaf, so a run stays in range exactly when every
insertion it gets to meets fewer than nine areas.

* **`leafInsertAt_overrun`** — the write past the array.
* **`OneLeaf`, `OneLeaf.insertAt`** — the tree until then, and what keeps it such.
* **`maple_inBounds_iff`** — over all runs, exactly when every index is in range.
-/

namespace Microkernel.Vma

open Function (update)

/-! ### One leaf -/

section Leaf
variable {room : ℕ} {leaf : MapleNode}

/-- The place in a leaf is found without leaving the array. -/
theorem leafFindSlotFrom_spec (start : U32) {n i : ℕ} (hn : i + n = leaf.nrEntries.toNat)
    (hroom : leaf.nrEntries.toNat ≤ room) :
    ∃ pos, leafFindSlotFrom room leaf start n i = .ok pos ∧ pos ≤ leaf.nrEntries.toNat := by
  induction n generalizing i with
  | zero => exact ⟨_, rfl, le_rfl⟩
  | succ n ih =>
    rw [leafFindSlotFrom, MapleNode.getPivot_ok (by omega), MapleM.ok_bind]
    split
    · exact ⟨i, rfl, by omega⟩
    · exact ih (by omega)

/-- An insertion into a leaf with a free key place. -/
theorem leafInsertAt_spec {pos vma : ℕ} {start : U32} (hpos : pos ≤ leaf.nrEntries.toNat)
    (hroom : leaf.nrEntries.toNat < room) (hslots : leaf.nrEntries.toNat < mapleNodeSlots) :
    ∃ leaf', leafInsertAt room leaf pos vma start = .ok leaf' ∧
      leaf'.nrEntries = leaf.nrEntries + 1#8 ∧ leaf'.isLeaf = leaf.isLeaf ∧
      ∀ j, leaf'.slots j = if j = pos then some vma
        else if pos < j ∧ j ≤ leaf.nrEntries.toNat then leaf.slots (j - 1) else leaf.slots j := by
  refine ⟨_, leafInsertAt_eq hpos hroom hslots, rfl, rfl, fun j => ?_⟩
  dsimp only
  rw [Function.update_apply]
  rfl

/-- **The overrun**: an insertion into a leaf that has as many entries as key places writes the key
past the array. -/
theorem leafInsertAt_overrun {pos vma : ℕ} {start : U32} (hpos : pos ≤ leaf.nrEntries.toNat)
    (hroom : leaf.nrEntries.toNat = room) (hroom₀ : 0 < room) :
    leafInsertAt room leaf pos vma start = .error (.pivotIndex room) := by
  have hset : ∀ (l : MapleNode) (v : U32), l.setPivot room room v = .error (.pivotIndex room) :=
    fun l v => if_neg (lt_irrefl room)
  unfold leafInsertAt
  rw [hroom] at hpos ⊢
  rcases Nat.eq_or_lt_of_le hpos with rfl | hlt
  · -- nothing moves, and the new key goes behind the last one
    have hshift : leafShiftUp pos pos pos leaf = .ok leaf := by
      cases pos with
      | zero => rfl
      | succ p => rw [leafShiftUp, if_neg (lt_irrefl _)]
    rw [hshift, MapleM.ok_bind, hset, MapleM.error_bind]
  · -- the last key moves first
    obtain ⟨r, rfl⟩ : ∃ r, room = r + 1 := ⟨room - 1, by omega⟩
    rw [leafShiftUp, if_pos hlt, MapleNode.getPivot_ok (Nat.lt_succ_self r), MapleM.ok_bind, hset,
      MapleM.error_bind, MapleM.error_bind]

/-- A removal from a leaf. -/
theorem leafRemoveAt_spec {pos : ℕ} (hpos : pos < leaf.nrEntries.toNat)
    (hroom : leaf.nrEntries.toNat ≤ room) (hslots : leaf.nrEntries.toNat ≤ mapleNodeSlots) :
    ∃ leaf', leafRemoveAt room leaf pos = .ok leaf' ∧ leaf'.nrEntries = leaf.nrEntries - 1#8 ∧
      leaf'.isLeaf = leaf.isLeaf ∧
      ∀ j < leaf.nrEntries.toNat - 1,
        leaf'.slots j = if pos ≤ j then leaf.slots (j + 1) else leaf.slots j := by
  refine ⟨_, leafRemoveAt_eq hpos hroom hslots, rfl, rfl, fun j hj => ?_⟩
  dsimp only
  rw [Function.update_of_ne (by omega)]
  unfold shiftedDown
  by_cases hle : pos ≤ j
  · rw [if_pos ⟨hle, by omega⟩, if_pos hle]
  · rw [if_neg fun h => hle h.1, if_neg hle]

end Leaf

/-! ### The area pool -/

/-- The free entries `l`, chained through their names from `h` on. -/
def VmaChain (vmas : ℕ → VmArea) : Option ℕ → List ℕ → Prop
  | h, [] => h = none
  | h, v :: l => h = some v ∧ ∃ next, (vmas v).name = NamePtr.ofEntry next ∧ VmaChain vmas next l

/-- Only the links of the free entries matter. -/
theorem VmaChain.congr_name {vmas vmas' : ℕ → VmArea} {h : Option ℕ} {l : List ℕ}
    (hl : VmaChain vmas h l) (hv : ∀ v ∈ l, (vmas' v).name = (vmas v).name) : VmaChain vmas' h l := by
  induction l generalizing h with
  | nil => exact hl
  | cons v l ih =>
    obtain ⟨rfl, next, hname, hl⟩ := hl
    refine ⟨rfl, next, ?_, ih hl fun w hw => hv w (by simp [hw])⟩
    rw [hv v (by simp)]
    exact hname

/-- Only the free entries matter. -/
theorem VmaChain.congr {vmas vmas' : ℕ → VmArea} {h : Option ℕ} {l : List ℕ}
    (hl : VmaChain vmas h l) (hv : ∀ v ∈ l, vmas' v = vmas v) : VmaChain vmas' h l :=
  hl.congr_name fun v hm => congrArg VmArea.name (hv v hm)

/-- **`vma_alloc`** takes the first free entry. -/
theorem VmaChain.alloc {s : MapleState} {v : ℕ} {l : List ℕ} (h : VmaChain s.vmas s.vmaFree (v :: l)) :
    ∃ next, (s.vmas v).name = NamePtr.ofEntry next ∧ VmaChain s.vmas next l ∧
      vmaAlloc s = .ok ({ s with vmaFree := next }.setVma v VmArea.zero, some v) := by
  obtain ⟨hfree, next, hname, hl⟩ := h
  refine ⟨next, hname, hl, ?_⟩
  unfold vmaAlloc
  rw [hfree]
  dsimp only
  rw [hname]
  cases next <;> rfl

/-! ### The checks of `maple_add` -/

section Checks
variable {room root leaf v : ℕ} {s : MapleState} {start stop flags : U32} {name : NamePtr} {b : Bool}
  {next : Option ℕ}

/-- **A call of `maple_add` that a check rejects** changes nothing; `b` is what the overlap check in the leaf
answers. -/
theorem mapleAdd_rejects (hroot : s.root = some root)
    (hdescend : mapleDescend room s start (mapleMaxNodes + 1) root = .ok (some leaf))
    (hoverlaps : leafOverlaps s (s.nodes leaf) start stop (s.nodes leaf).nrEntries.toNat 0 = .ok b)
    (hno : ¬ (s.count < mapleMaxVmas ∧ (start < stop ∧ start.PageAligned ∧ stop.PageAligned) ∧ b = false)) :
    mapleAdd room start stop flags name s = .ok (s, -1) := by
  rw [mapleAdd]
  by_cases hcount : s.count ≥ mapleMaxVmas
  · rw [if_pos hcount]
  by_cases hrange : start ≥ stop
  · rw [if_neg hcount, if_pos hrange]
  by_cases halign : ¬ start.PageAligned ∨ ¬ stop.PageAligned
  · rw [if_neg hcount, if_neg hrange, if_pos halign]
  -- the other checks hold, so it is the overlap that fails
  have hb : b = true := by
    rw [not_or, not_not, not_not] at halign
    by_contra hb
    exact hno ⟨not_le.mp hcount, ⟨BitVec.not_le.mp hrange, halign⟩, Bool.eq_false_of_not_eq_true hb⟩
  rw [if_neg hcount, if_neg hrange, if_neg halign, hroot]
  dsimp only
  rw [hdescend, MapleM.ok_bind]
  dsimp only
  rw [hoverlaps, MapleM.ok_bind, if_pos hb]
  rfl

/-- **A call that passes the checks** fills the entry that `vma_alloc` gives and inserts it into the leaf. -/
theorem mapleAdd_inserts (hroot : s.root = some root)
    (hdescend : mapleDescend room s start (mapleMaxNodes + 1) root = .ok (some leaf))
    (hoverlaps : leafOverlaps s (s.nodes leaf) start stop (s.nodes leaf).nrEntries.toNat 0 = .ok false)
    (hcount : s.count < mapleMaxVmas) (hvalid : start < stop ∧ start.PageAligned ∧ stop.PageAligned)
    (halloc : vmaAlloc s = .ok ({ s with vmaFree := next }.setVma v VmArea.zero, some v)) :
    mapleAdd room start stop flags name s = mapleInsert room leaf v start
      { s with vmas := update s.vmas v ⟨start, stop, flags, name⟩, vmaFree := next } := by
  rw [mapleAdd, if_neg (not_le.mpr hcount), if_neg (BitVec.not_le.mpr hvalid.1),
    if_neg (by simp [hvalid.2]), hroot]
  dsimp only
  rw [hdescend, MapleM.ok_bind]
  dsimp only
  rw [hoverlaps, MapleM.ok_bind, if_neg (by decide), halloc, MapleM.ok_bind]
  dsimp only [MapleState.setVma]
  rw [Function.update_idem, hroot]

/-- The insertion of an entry into a leaf that has a place for it. -/
theorem mapleInsert_place {pos : ℕ} (hplace : (s.nodes leaf).nrEntries.toNat < mapleNodeSlots)
    (hpos : leafFindSlot room (s.nodes leaf) start = .ok pos) :
    mapleInsert room leaf v start s = (leafInsertAt room (s.nodes leaf) pos v start >>= fun n =>
      .ok ({ s.setNode leaf n with count := s.count + 1 }, 0)) := by
  rw [mapleInsert, if_pos hplace, hpos, MapleM.ok_bind]
  rfl

end Checks

/-! ### The tree before the first split -/

/-- **The tree before the first split**: the root is a leaf with the areas `used`, and the other pool
entries are free. -/
structure MapleState.OneLeaf (s : MapleState) (root : ℕ) (used free : List ℕ) : Prop where
  root_eq : s.root = some root
  isLeaf : (s.nodes root).isLeaf = true
  nrEntries : (s.nodes root).nrEntries.toNat = used.length
  slots : ∀ i < used.length, (s.nodes root).slots i = used[i]?
  count : s.count = used.length
  chain : VmaChain s.vmas s.vmaFree free
  nodup : (used ++ free).Nodup
  length : used.length + free.length = mapleMaxVmas
  /-- No more areas than key places. -/
  le_room : used.length ≤ mapleMaxPivots

/-- The range meets an area in the root. -/
def MapleState.MeetsStored (s : MapleState) (start stop : U32) : Prop :=
  ∃ root, s.root = some root ∧ ∃ i < (s.nodes root).nrEntries.toNat, ∃ v,
    (s.nodes root).slots i = some v ∧ start < (s.vmas v).stop ∧ (s.vmas v).start < stop

/-- **The condition on a call**: an `add` that passes the checks meets fewer areas than a leaf has key
places. -/
def MapleState.WithinRoom (s : MapleState) : VmaCall → Prop
  | .add start stop _ _ =>
      s.count < mapleMaxPivots ∨ start ≥ stop ∨ ¬ start.PageAligned ∨ ¬ stop.PageAligned ∨
        s.MeetsStored start stop
  | _ => True

section OneLeaf
variable {s : MapleState} {root : ℕ} {used free : List ℕ}

/-- A node has one place less for keys than it has slots. -/
theorem mapleMaxPivots_lt : mapleMaxPivots < mapleNodeSlots := by decide

/-- The descent stays at the root. -/
theorem MapleState.OneLeaf.descend (h : s.OneLeaf root used free) (addr : U32) :
    mapleDescend mapleMaxPivots s addr (mapleMaxNodes + 1) root = .ok (some root) := by
  rw [mapleDescend, if_pos h.isLeaf]

/-- The overlap check of `maple_add`. -/
theorem MapleState.OneLeaf.overlaps (h : s.OneLeaf root used free) (start stop : U32) {n i : ℕ}
    (hn : i + n = used.length) :
    ∃ b, leafOverlaps s (s.nodes root) start stop n i = .ok b ∧
      (b = true ↔ ∃ j, i ≤ j ∧ j < used.length ∧ ∃ v, (s.nodes root).slots j = some v ∧
        start < (s.vmas v).stop ∧ (s.vmas v).start < stop) := by
  induction n generalizing i with
  | zero =>
    refine ⟨false, rfl, ?_⟩
    simp only [Bool.false_eq_true, false_iff]
    rintro ⟨j, h₁, h₂, -⟩
    omega
  | succ n ih =>
    have hlt : i < used.length := by omega
    have hroom := h.le_room
    have hslot := h.slots i hlt
    rw [List.getElem?_eq_getElem hlt] at hslot
    rw [leafOverlaps, MapleNode.getSlot_ok (by have := mapleMaxPivots_lt; omega), MapleM.ok_bind,
      hslot]
    dsimp only
    by_cases hov : start < (s.vmas used[i]).stop ∧ (s.vmas used[i]).start < stop
    · rw [if_pos hov]
      exact ⟨true, rfl, by simpa using ⟨i, le_rfl, hlt, _, hslot, hov⟩⟩
    · rw [if_neg hov]
      obtain ⟨b, hb, hiff⟩ := ih (i := i + 1) (by omega)
      refine ⟨b, hb, hiff.trans ?_⟩
      constructor
      · rintro ⟨j, h₁, h₂, hj⟩
        exact ⟨j, by omega, h₂, hj⟩
      · rintro ⟨j, h₁, h₂, v, hv, hj⟩
        rcases Nat.eq_or_lt_of_le h₁ with rfl | h₁
        · rw [hslot] at hv
          obtain rfl := Option.some.inj hv
          exact absurd hj hov
        · exact ⟨j, h₁, h₂, v, hv, hj⟩

/-- `vma_alloc` takes the first free entry. -/
theorem MapleState.OneLeaf.vmaAlloc (h : s.OneLeaf root used free) :
    ∃ v l next, free = v :: l ∧ vmaAlloc s = .ok
      ({ s with vmaFree := next }.setVma v VmArea.zero, some v) ∧ VmaChain s.vmas next l := by
  have hlen := h.length
  have hroom := h.le_room
  have hmax : mapleMaxPivots < mapleMaxVmas := by decide
  have hchain := h.chain
  cases free with
  | nil => simp at hlen; omega
  | cons v l =>
    obtain ⟨next, -, hl, halloc⟩ := hchain.alloc
    exact ⟨v, l, next, rfl, halloc, hl⟩

/-- The overlap check asks whether the range meets a stored area. -/
theorem MapleState.OneLeaf.meetsStored (h : s.OneLeaf root used free) (start stop : U32) :
    ∃ b, leafOverlaps s (s.nodes root) start stop (s.nodes root).nrEntries.toNat 0 = .ok b ∧
      (s.MeetsStored start stop ↔ b = true) := by
  obtain ⟨b, hb, hiff⟩ := h.overlaps start stop (n := used.length) (i := 0) (by omega)
  refine ⟨b, h.nrEntries ▸ hb, ?_⟩
  rw [hiff]
  constructor
  · rintro ⟨r, hr, i, hi, hrest⟩
    obtain rfl : root = r := Option.some.inj (h.root_eq.symm.trans hr)
    exact ⟨i, Nat.zero_le _, by rwa [← h.nrEntries], hrest⟩
  · rintro ⟨i, -, hi, hrest⟩
    exact ⟨root, h.root_eq, i, by rwa [h.nrEntries], hrest⟩

/-- A call within the room is rejected, or there is a key place. -/
theorem MapleState.OneLeaf.withinRoom_iff (h : s.OneLeaf root used free) {start stop flags : U32}
    {name : NamePtr} {b : Bool} (hb : s.MeetsStored start stop ↔ b = true) :
    s.WithinRoom (.add start stop flags name) ↔ used.length < mapleMaxPivots ∨
      ¬ (s.count < mapleMaxVmas ∧ (start < stop ∧ start.PageAligned ∧ stop.PageAligned) ∧ b = false) := by
  have hroom := h.le_room
  have hmax : mapleMaxPivots < mapleMaxVmas := by decide
  have hcount : s.count < mapleMaxVmas := by
    rw [h.count]
    omega
  unfold MapleState.WithinRoom
  dsimp only
  rw [hb, h.count, ge_iff_le, ← BitVec.not_lt]
  rw [h.count] at hcount
  cases b <;> tauto

/-- **An entry that moves from the free ones into the leaf** leaves a single leaf. -/
theorem MapleState.OneLeaf.insertAt {v pos : ℕ} {l : List ℕ} {next : Option ℕ}
    (h : s.OneLeaf root used (v :: l)) (hchain : VmaChain s.vmas next l)
    (hlt : used.length < mapleMaxPivots) (hpos : pos ≤ used.length) (start : U32) (a : VmArea) :
    ∃ leaf, leafInsertAt mapleMaxPivots (s.nodes root) pos v start = .ok leaf ∧
      MapleState.OneLeaf { s with
        nodes := update s.nodes root leaf, vmas := update s.vmas v a, vmaFree := next
        count := s.count + 1 } root (used.insertIdx pos v) l := by
  have hnr := h.nrEntries
  obtain ⟨leaf, hres, hnr', hleaf, hsl⟩ := @leafInsertAt_spec mapleMaxPivots (s.nodes root) pos
    v start (by omega) (by omega) (by have := mapleMaxPivots_lt; omega)
  have hlen : (used.insertIdx pos v).length = used.length + 1 :=
    List.length_insertIdx_of_le_length hpos ..
  have hperm : (used.insertIdx pos v ++ l).Perm (used ++ v :: l) :=
    ((List.perm_insertIdx v used hpos).append_right l).trans List.perm_middle.symm
  have hself : update s.nodes root leaf root = leaf := Function.update_self ..
  refine ⟨leaf, hres, h.root_eq, ?_, ?_, fun i hi => ?_, ?_, ?_, hperm.nodup_iff.mpr h.nodup, ?_, ?_⟩
  · show (update s.nodes root leaf root).isLeaf = _
    rw [hself, hleaf]
    exact h.isLeaf
  · show (update s.nodes root leaf root).nrEntries.toNat = _
    have hmax : mapleMaxPivots = 9 := rfl
    rw [hself, hnr', hlen]
    bv_omega
  · -- the entries from `pos` on have moved up
    show (update s.nodes root leaf root).slots i = _
    rw [hlen] at hi
    rw [hself, hsl, List.getElem?_insertIdx, hnr]
    by_cases hip : i = pos
    · rw [if_pos hip, if_neg (by omega), if_pos hip, if_pos (by omega)]
    · rw [if_neg hip]
      by_cases hlt' : i < pos
      · rw [if_neg (by omega), if_pos hlt']
        exact h.slots i (by omega)
      · rw [if_pos (by omega), if_neg hlt', if_neg hip]
        exact h.slots (i - 1) (by omega)
  · show s.count + 1 = _
    rw [h.count, hlen]
  · refine hchain.congr fun w hw => Function.update_of_ne ?_ ..
    rintro rfl
    exact (List.nodup_cons.mp (List.nodup_append'.mp h.nodup).2.1).1 hw
  · have := h.length
    rw [hlen]
    simp only [List.length_cons] at this
    omega
  · rw [hlen]
    exact hlt

/-- An `add` in range keeps the tree a single leaf; an `add` that passes the checks when all key places
are taken overruns the array. -/
theorem mapleAdd_spec (h : s.OneLeaf root used free) (start stop flags : U32) (name : NamePtr) :
    (s.WithinRoom (.add start stop flags name) →
      ∃ s' r used' free', mapleAdd mapleMaxPivots start stop flags name s = .ok (s', r) ∧
        s'.OneLeaf root used' free') ∧
    (¬ s.WithinRoom (.add start stop flags name) →
      mapleAdd mapleMaxPivots start stop flags name s = .error (.pivotIndex mapleMaxPivots)) := by
  obtain ⟨b, hb, hmeets⟩ := h.meetsStored start stop
  rw [h.withinRoom_iff hmeets]
  by_cases hpass : s.count < mapleMaxVmas ∧ (start < stop ∧ start.PageAligned ∧ stop.PageAligned) ∧ b = false
  · obtain ⟨hcount, hvalid, rfl⟩ := hpass
    -- the area is allocated and inserted into the root
    obtain ⟨v, l, next, rfl, halloc, hchain⟩ := h.vmaAlloc
    have hroom := h.le_room
    have hnr := h.nrEntries
    obtain ⟨pos, hpos, hle⟩ := @leafFindSlotFrom_spec mapleMaxPivots (s.nodes root) start
      (s.nodes root).nrEntries.toNat 0 (by omega) (by omega)
    have hadd : mapleAdd mapleMaxPivots start stop flags name s =
        (leafInsertAt mapleMaxPivots (s.nodes root) pos v start >>= fun n => .ok ({ s with
          nodes := update s.nodes root n, vmas := update s.vmas v ⟨start, stop, flags, name⟩, vmaFree := next
          count := s.count + 1 }, 0)) := by
      refine (mapleAdd_inserts h.root_eq (h.descend start) hb hcount hvalid halloc).trans
        (mapleInsert_place ?_ hpos)
      have := mapleMaxPivots_lt
      show (s.nodes root).nrEntries.toNat < _
      omega
    refine ⟨fun hw => ?_, fun hw => ?_⟩
    · obtain ⟨leaf, hres, h'⟩ := h.insertAt hchain (hw.resolve_right (not_not_intro ⟨hcount, hvalid, rfl⟩))
        (hnr ▸ hle) start ⟨start, stop, flags, name⟩
      exact ⟨_, 0, _, l, by rw [hadd, hres, MapleM.ok_bind], h'⟩
    · rw [not_or, not_lt] at hw
      rw [hadd, leafInsertAt_overrun hle (by omega) (by decide), MapleM.error_bind]
  · exact ⟨fun _ => ⟨s, -1, used, free, mapleAdd_rejects h.root_eq (h.descend start) hb hpass, h⟩,
      fun hw => absurd (.inr hpass) hw⟩

/-- The search of `maple_remove` ends with an area of the root that has the start, or with nothing. -/
theorem MapleState.OneLeaf.findStart (h : s.OneLeaf root used free) (start : U32) {n i : ℕ}
    (hn : i + n = used.length) :
    leafFindStart s (s.nodes root) start n i = .ok none ∨
    ∃ j v, leafFindStart s (s.nodes root) start n i = .ok (some (j, v)) ∧ used[j]? = some v := by
  induction n generalizing i with
  | zero => exact .inl rfl
  | succ n ih =>
    have hlt : i < used.length := by omega
    have hroom := h.le_room
    have hslot := h.slots i hlt
    rw [List.getElem?_eq_getElem hlt] at hslot
    rw [leafFindStart, MapleNode.getSlot_ok (by have := mapleMaxPivots_lt; omega), MapleM.ok_bind,
      hslot]
    dsimp only
    split
    · exact .inr ⟨i, used[i], rfl, List.getElem?_eq_getElem hlt⟩
    · exact ih (by omega)

/-- A `remove` keeps the tree a single leaf. -/
theorem mapleRemove_spec (h : s.OneLeaf root used free) (start : U32) :
    ∃ s' r used' free', mapleRemove mapleMaxPivots start s = .ok (s', r) ∧
      s'.OneLeaf root used' free' := by
  have hroom := h.le_room
  rcases h.findStart start (n := (s.nodes root).nrEntries.toNat) (i := 0)
    (by rw [h.nrEntries]; omega) with hnone | ⟨i, v, hsome, hv⟩
  · refine ⟨s, -1, used, free, ?_, h⟩
    simp only [mapleRemove, h.root_eq, h.descend, MapleM.ok_bind, hnone]
    rfl
  obtain ⟨hi, hiv⟩ := List.getElem?_eq_some_iff.mp hv
  have hnr := h.nrEntries
  obtain ⟨leaf', hres, hnr', hleaf, hsl⟩ := @leafRemoveAt_spec mapleMaxPivots (s.nodes root) i
    (by omega) (by omega)
    (by have := mapleMaxPivots_lt; omega)
  have hlen : (used.eraseIdx i).length = used.length - 1 := List.length_eraseIdx_of_lt hi
  -- the entry moves from the leaf to the free ones
  have hperm : (used.eraseIdx i ++ v :: free).Perm (used ++ free) := by
    have herase := List.getElem_cons_eraseIdx_perm hi
    rw [hiv] at herase
    exact List.perm_middle.trans (herase.append_right free)
  have hnode : ({ (vmaFreeEntry v s).setNode root leaf' with count := s.count - 1 } :
      MapleState).nodes root = leaf' := Function.update_self ..
  refine ⟨{ (vmaFreeEntry v s).setNode root leaf' with count := s.count - 1 }, 0, used.eraseIdx i,
    v :: free, ?_, ?_⟩
  · have hnodes : (vmaFreeEntry v s).nodes = s.nodes := rfl
    simp only [mapleRemove, h.root_eq, h.descend, MapleM.ok_bind, hsome, hnodes, hres]
    rfl
  constructor
  · exact h.root_eq
  · rw [hnode, hleaf]
    exact h.isLeaf
  · rw [hnode, hnr', hlen]
    bv_omega
  · intro j hj
    rw [hlen] at hj
    rw [hnode, hsl j (by omega), List.getElem?_eraseIdx]
    by_cases hle : i ≤ j
    · rw [if_pos hle, if_neg (by omega)]
      exact h.slots (j + 1) (by omega)
    · rw [if_neg hle, if_pos (by omega)]
      exact h.slots j (by omega)
  · show s.count - 1 = _
    rw [h.count, hlen]
  · -- the removed entry is in front of the free ones
    refine ⟨rfl, s.vmaFree, ?_, h.chain.congr fun w hw => ?_⟩
    · show (update s.vmas v { s.vmas v with name := NamePtr.ofEntry s.vmaFree } v).name = _
      rw [Function.update_self]
    · have hwv : w ≠ v := by
        rintro rfl
        refine (List.nodup_append'.mp h.nodup).2.2 ?_ hw
        rw [← hiv]
        exact List.getElem_mem hi
      exact Function.update_of_ne hwv ..
  · exact hperm.nodup_iff.mpr h.nodup
  · have := h.length
    rw [hlen]
    simp only [List.length_cons]
    omega
  · rw [hlen]
    omega

/-- A `find` leaves no array. -/
theorem mapleFind_spec (h : s.OneLeaf root used free) (addr : U32) :
    ∃ a, mapleFind mapleMaxPivots addr s = .ok a := by
  have hroom := h.le_room
  have hscan : ∀ n i, i + n = used.length →
      ∃ a, leafFindAddr s (s.nodes root) addr n i = .ok a := by
    intro n
    induction n with
    | zero => exact fun i _ => ⟨none, rfl⟩
    | succ n ih =>
      intro i hn
      rw [leafFindAddr, MapleNode.getSlot_ok (by have := mapleMaxPivots_lt; omega), MapleM.ok_bind,
        h.slots i (by omega), List.getElem?_eq_getElem (by omega)]
      dsimp only
      split
      · exact ⟨_, rfl⟩
      · exact ih (i + 1) (by omega)
  obtain ⟨a, ha⟩ := hscan (s.nodes root).nrEntries.toNat 0 (by rw [h.nrEntries]; omega)
  refine ⟨a, ?_⟩
  unfold mapleFind
  rw [h.root_eq]
  dsimp only
  rw [h.descend]
  exact ha

/-- **One call** stays in range, and the tree a single leaf, exactly when the condition holds. -/
theorem mapleCall_spec (h : s.OneLeaf root used free) (call : VmaCall) :
    (s.WithinRoom call → ∃ s' a used' free', mapleCall mapleMaxPivots s call = .ok (s', a) ∧
      s'.OneLeaf root used' free') ∧
    (¬ s.WithinRoom call →
      mapleCall mapleMaxPivots s call = .error (.pivotIndex mapleMaxPivots)) := by
  cases call with
  | add start stop flags name =>
    obtain ⟨hok, hbad⟩ := mapleAdd_spec h start stop flags name
    constructor
    · intro hw
      obtain ⟨s', r, used', free', hres, h'⟩ := hok hw
      refine ⟨s', .status r, used', free', ?_, h'⟩
      simp only [mapleCall, hres]
      rfl
    · intro hw
      simp only [mapleCall, hbad hw]
      rfl
  | remove start =>
    refine ⟨fun _ => ?_, fun hw => absurd trivial hw⟩
    obtain ⟨s', r, used', free', hres, h'⟩ := mapleRemove_spec h start
    refine ⟨s', .status r, used', free', ?_, h'⟩
    simp only [mapleCall, hres]
    rfl
  | find addr =>
    refine ⟨fun _ => ?_, fun hw => absurd trivial hw⟩
    obtain ⟨a, hres⟩ := mapleFind_spec h addr
    refine ⟨s, .area a, used, free, ?_, h⟩
    simp only [mapleCall, hres]
    rfl
  | count => exact ⟨fun _ => ⟨s, _, used, free, rfl, h⟩, fun hw => absurd trivial hw⟩

end OneLeaf

/-! ### Runs -/

/-- The free entries after `vma_pool_init`. -/
theorem vmaPoolInit_chain (s : MapleState) {n i : ℕ} (hn : i + n + 1 = mapleMaxVmas) :
    VmaChain (vmaPoolInit s).vmas (some i) (List.range' i (n + 1)) := by
  induction n generalizing i with
  | zero =>
    refine ⟨rfl, none, ?_, rfl⟩
    show (ite _ _ _ : VmArea).name = _
    rw [if_neg (by omega), if_pos (by omega)]
    rfl
  | succ n ih =>
    refine ⟨rfl, some (i + 1), ?_, ih (by omega)⟩
    show (ite _ _ _ : VmArea).name = _
    rw [if_pos (by omega)]
    rfl

/-- An initialised tree is one empty leaf. -/
theorem mapleInit_oneLeaf (s : MapleState) :
    (mapleInit s).OneLeaf 0 [] (List.range' 0 mapleMaxVmas) where
  root_eq := rfl
  isLeaf := rfl
  nrEntries := rfl
  slots := by simp
  count := rfl
  chain := vmaPoolInit_chain (nodePoolInit s) (n := 255) (i := 0) rfl
  nodup := by
    rw [List.nil_append]
    exact List.nodup_range'
  length := by
    rw [List.length_range']
    rfl
  le_room := by simp

/-- Every call of the run meets the condition in the state it is made in. -/
def mapleWithinRoom (s : MapleState) : List VmaCall → Prop
  | [] => True
  | call :: calls =>
      s.WithinRoom call ∧
        ∀ s' a, mapleCall mapleMaxPivots s call = .ok (s', a) → mapleWithinRoom s' calls

/-- No index of the run from `maple_init` is out of range. -/
def MapleInBounds (s₀ : MapleState) (calls : List VmaCall) : Prop :=
  ∀ i, mapleRun mapleMaxPivots (mapleInit s₀) calls ≠ .error (.pivotIndex i) ∧
    mapleRun mapleMaxPivots (mapleInit s₀) calls ≠ .error (.slotIndex i)

/-- A run from a single leaf returns when every call meets the condition, and overruns the keys when
one does not. -/
theorem mapleRun_spec {root : ℕ} (calls : List VmaCall) :
    ∀ {s : MapleState} {used free : List ℕ}, s.OneLeaf root used free →
      (mapleWithinRoom s calls → ∃ s', mapleRun mapleMaxPivots s calls = .ok s') ∧
      (¬ mapleWithinRoom s calls →
        mapleRun mapleMaxPivots s calls = .error (.pivotIndex mapleMaxPivots)) := by
  induction calls with
  | nil => exact fun _ => ⟨fun _ => ⟨_, rfl⟩, fun hw => absurd trivial hw⟩
  | cons call calls ih =>
    intro s used free h
    obtain ⟨hok, hbad⟩ := mapleCall_spec h call
    by_cases hw : s.WithinRoom call
    · obtain ⟨s', a, used', free', hres, h'⟩ := hok hw
      obtain ⟨hok', hbad'⟩ := ih h'
      have hrun : mapleRun mapleMaxPivots s (call :: calls) = mapleRun mapleMaxPivots s' calls := by
        rw [mapleRun, hres]
        rfl
      have hiff : mapleWithinRoom s (call :: calls) ↔ mapleWithinRoom s' calls := by
        constructor
        · exact fun hc => hc.2 s' a hres
        · intro hc
          refine ⟨hw, fun t b ht => ?_⟩
          rw [hres] at ht
          obtain ⟨rfl, -⟩ : s' = t ∧ a = b := by simpa using ht
          exact hc
      rw [hrun, hiff]
      exact ⟨hok', hbad'⟩
    · refine ⟨fun hc => absurd hc.1 hw, fun _ => ?_⟩
      rw [mapleRun, hbad hw, MapleM.error_bind]

/-- **The keys stay in range exactly as long as every insertion meets fewer than nine areas.** -/
theorem maple_inBounds_iff (s₀ : MapleState) (calls : List VmaCall) :
    MapleInBounds s₀ calls ↔ mapleWithinRoom (mapleInit s₀) calls := by
  obtain ⟨hok, hbad⟩ := mapleRun_spec calls (mapleInit_oneLeaf s₀)
  constructor
  · intro hin
    by_contra hw
    exact (hin mapleMaxPivots).1 (hbad hw)
  · intro hw i
    obtain ⟨s', hs'⟩ := hok hw
    rw [hs']
    exact ⟨by simp, by simp⟩

/-- Static data that are all zero. -/
def mapleZero : MapleState where
  nodes _ := ⟨fun _ => 0#32, 0#8, false, none, fun _ => none⟩
  nodeFree := none
  vmas _ := VmArea.zero
  vmaFree := none
  root := none
  count := 0

/-- The `add` of the page with number `i`. -/
def addPage (i : ℕ) : VmaCall :=
  .add (BitVec.ofNat 32 (4096 * i)) (BitVec.ofNat 32 (4096 * (i + 1))) 3#32 .null

/-- Ten areas of one page each: the tenth `add` writes `pivots[9]`. -/
theorem maple_tenth_add_overruns :
    mapleRun mapleMaxPivots (mapleInit mapleZero) ((List.range 10).map addPage) =
      .error (.pivotIndex 9) ∧
    ¬ ∀ s₀ calls, MapleInBounds s₀ calls := by
  have hrun : mapleRun mapleMaxPivots (mapleInit mapleZero) ((List.range 10).map addPage) =
      .error (.pivotIndex 9) := by rfl
  exact ⟨hrun, fun h => (h mapleZero ((List.range 10).map addPage) 9).1 hrun⟩

end Microkernel.Vma
