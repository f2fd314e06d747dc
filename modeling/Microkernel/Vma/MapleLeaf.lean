import Microkernel.Vma.MapleBounds
import Microkernel.Vma.RegistryRefinement

/-! # The maple tree while it is a single leaf

Up to nine areas the tree is one leaf that holds them in address order, every index is in range, and the
backend serves the registry. The tenth area is the first whose key has no place.

* **`LeafHolds`** — the root is a leaf with these areas, in the order of the registry.
* **`LeafHolds.add`, `LeafHolds.remove`, `LeafHolds.find`** — each operation does what the registry does.
* **`mapleOps_within`** — so the backend refines the registry in every run whose additions meet fewer than
  nine areas, and the kernel may be verified against the registry.
-/

namespace Microkernel.Vma

open Function (update)

/-- `maple_ops`. -/
def mapleOps : VmaOps MapleState where
  init := mapleInit
  add s start stop flags name := (mapleAdd mapleMaxPivots start stop flags name s).toOption
  remove s start := (mapleRemove mapleMaxPivots start s).toOption
  find s addr := (mapleFind mapleMaxPivots addr s).toOption
  count s := s.count

/-- **The root is a leaf with the areas `S`**, whose entries are `l`; the other pool entries are free. -/
structure MapleState.LeafHolds (s : MapleState) (S : AreaSet) (root : ℕ) (l : List (U32 × ℕ))
    (free : List ℕ) : Prop where
  root_eq : s.root = some root
  entries : (s.nodes root).HasEntries l
  keys : ∀ e ∈ l, e.1 = (s.vmas e.2).start
  areas : (l.map fun e => s.vmas e.2) = S.areas
  count : s.count = l.length
  chain : VmaChain s.vmas s.vmaFree free
  nodup : (l.map (·.2) ++ free).Nodup
  length : l.length + free.length = mapleMaxVmas
  le_room : l.length ≤ mapleMaxPivots

/-- An element inserted where a prefix ends. -/
theorem insertIdx_takeWhile {α : Type*} (p : α → Bool) (l : List α) (x : α) :
    l.insertIdx (l.takeWhile p).length x = l.takeWhile p ++ x :: l.dropWhile p := by
  induction l with
  | nil => rfl
  | cons a l ih =>
    by_cases ha : p a
    · rw [List.takeWhile_cons_of_pos ha, List.dropWhile_cons_of_pos ha, List.length_cons,
        List.insertIdx_succ_cons, ih, List.cons_append]
    · rw [List.takeWhile_cons_of_neg ha, List.dropWhile_cons_of_neg ha]
      rfl

/-- The prefix depends on the elements of the list alone. -/
theorem takeWhile_congr_mem {α : Type*} {p q : α → Bool} {l : List α} (h : ∀ x ∈ l, p x = q x) :
    l.takeWhile p = l.takeWhile q := by
  induction l with
  | nil => rfl
  | cons a l ih =>
    rw [List.takeWhile_cons, List.takeWhile_cons, h a List.mem_cons_self,
      ih fun x hx => h x (List.mem_cons_of_mem a hx)]

section LeafHolds
variable {s : MapleState} {S : AreaSet} {root : ℕ} {l : List (U32 × ℕ)} {free : List ℕ}

/-- As many areas as entries. -/
theorem MapleState.LeafHolds.length_areas (h : s.LeafHolds S root l free) :
    S.areas.length = l.length := by
  rw [← h.areas, List.length_map]

/-- The descent stays at the root. -/
theorem MapleState.LeafHolds.descend (h : s.LeafHolds S root l free) (addr : U32) :
    mapleDescend mapleMaxPivots s addr (mapleMaxNodes + 1) root = .ok (some root) := by
  rw [mapleDescend, if_pos h.entries.isLeaf]

/-- The checks of `maple_add` are those of the registry. -/
theorem MapleState.LeafHolds.admits_iff (h : s.LeafHolds S root l free) (start stop flags : U32)
    (name : NamePtr) :
    S.Admits ⟨start, stop, flags, name⟩ ↔ s.count < mapleMaxVmas ∧
      (start < stop ∧ start.PageAligned ∧ stop.PageAligned) ∧
      (l.any fun e => decide (start < (s.vmas e.2).stop ∧ (s.vmas e.2).start < stop)) = false := by
  have hmeets : (l.any fun e => decide (start < (s.vmas e.2).stop ∧ (s.vmas e.2).start < stop)) = false ↔
      ∀ b ∈ S.areas, ¬ (VmArea.mk start stop flags name).Overlaps b := by
    rw [← h.areas, List.forall_mem_map, ← Bool.not_eq_true, List.any_eq_true, not_exists]
    refine forall_congr' fun e => ?_
    rw [VmArea.overlaps_iff, not_and, decide_eq_true_iff]
  rw [hmeets, h.count, ← h.length_areas]
  exact Iff.rfl

/-- A free entry is none of the leaf's. -/
theorem MapleState.LeafHolds.keeps {v : ℕ} {free' : List ℕ} (h : s.LeafHolds S root l (v :: free'))
    (a : VmArea) {e : U32 × ℕ} (he : e ∈ l) : update s.vmas v a e.2 = s.vmas e.2 := by
  refine Function.update_of_ne ?_ ..
  rintro rfl
  have hnotin := (List.nodup_cons.mp (List.nodup_middle.mp h.nodup)).1
  exact hnotin (List.mem_append_left _ (List.mem_map_of_mem he))

/-- The areas of the leaf after an insertion behind the smaller starts. -/
theorem MapleState.LeafHolds.insert_areas {v : ℕ} {free' : List ℕ} (h : s.LeafHolds S root l (v :: free'))
    (a : VmArea) :
    (l.insertIdx (l.takeWhile fun e => decide (e.1 < a.start)).length (a.start, v)).map
      (fun e => update s.vmas v a e.2) = AreaSet.insertList S.areas a := by
  have hold : l.map (fun e => update s.vmas v a e.2) = S.areas := by
    rw [← h.areas]
    exact List.map_congr_left fun e he => h.keeps a he
  have htake : (S.areas.takeWhile fun b => decide (b.lo < a.lo)).length =
      (l.takeWhile fun e => decide (e.1 < a.start)).length := by
    rw [← h.areas, List.takeWhile_map, List.length_map]
    congr 1
    refine takeWhile_congr_mem fun e he => ?_
    rw [h.keys e he]
    rfl
  have hinsert := insertIdx_takeWhile (fun b => decide (b.lo < a.lo)) S.areas a
  rw [htake] at hinsert
  rw [AreaSet.insertList, ← hinsert, ← hold, List.map_insertIdx]
  dsimp only
  rw [Function.update_self]

/-- **An area that is admitted** gets a free entry, and a place behind the smaller starts. -/
theorem MapleState.LeafHolds.insert {v : ℕ} {free' : List ℕ} {next : Option ℕ} {a : VmArea}
    (h : s.LeafHolds S root l (v :: free')) (hchain : VmaChain s.vmas next free') (hlen : l.length < 9)
    (hadm : S.Admits a) :
    ∃ n l', leafInsertAt mapleMaxPivots (s.nodes root) (l.takeWhile fun e => decide (e.1 < a.start)).length
        v a.start = .ok n ∧
      MapleState.LeafHolds { s with
        nodes := update s.nodes root n, vmas := update s.vmas v a, vmaFree := next
        count := s.count + 1 } (S.insert a hadm) root l' free' := by
  obtain ⟨pos, hpos⟩ : ∃ pos, pos = (l.takeWhile fun e => decide (e.1 < a.start)).length := ⟨_, rfl⟩
  have hple : pos ≤ l.length := hpos ▸ (List.takeWhile_sublist _).length_le
  have hareas := h.insert_areas a
  rw [← hpos] at hareas ⊢
  obtain ⟨n, hins, -, hentries⟩ : ∃ n, leafInsertAt mapleMaxPivots (s.nodes root) pos v a.start = .ok n ∧
      n.parent = (s.nodes root).parent ∧ n.HasEntries (l.insertIdx pos (a.start, v)) :=
    h.entries.insertAt hple hlen (hlen.trans (by decide))
  have hinsLen : (l.insertIdx pos (a.start, v)).length = l.length + 1 :=
    List.length_insertIdx_of_le_length hple ..
  have hnodup := List.nodup_middle.mp h.nodup
  refine ⟨n, l.insertIdx pos (a.start, v), hins, h.root_eq, ?_, fun e he => ?_, hareas, ?_, ?_, ?_, ?_, ?_⟩
  · show (update s.nodes root n root).HasEntries _
    rw [Function.update_self]
    exact hentries
  · show e.1 = (update s.vmas v a e.2).start
    rcases (List.mem_insertIdx hple).mp he with rfl | he
    · rw [Function.update_self]
    · rw [h.keeps a he]
      exact h.keys e he
  · show s.count + 1 = _
    rw [h.count, hinsLen]
  · refine hchain.congr fun w hw => Function.update_of_ne ?_ ..
    rintro rfl
    exact (List.nodup_cons.mp hnodup).1 (List.mem_append_right _ hw)
  · have hperm := (List.perm_insertIdx (a.start, v) l hple).map (·.2)
    rw [List.map_cons] at hperm
    exact (hperm.append_right free').nodup_iff.mpr hnodup
  · have hsum := h.length
    rw [List.length_cons] at hsum
    rw [hinsLen]
    omega
  · rw [hinsLen]
    exact hlen

/-- **`maple_add`** with a free key place does what the registry does. -/
theorem MapleState.LeafHolds.add (h : s.LeafHolds S root l free) (hroom : S.areas.length < 9)
    (start stop flags : U32) (name : NamePtr) :
    ∃ s' l' free', mapleAdd mapleMaxPivots start stop flags name s =
        .ok (s', (S.add ⟨start, stop, flags, name⟩).2) ∧
      s'.LeafHolds (S.add ⟨start, stop, flags, name⟩).1 root l' free' := by
  have hlen : l.length < 9 := h.length_areas ▸ hroom
  have hoverlaps := h.entries.overlaps (s := s) start stop
  by_cases hadm : S.Admits ⟨start, stop, flags, name⟩
  · obtain ⟨hcount, hvalid, hany⟩ := (h.admits_iff start stop flags name).mp hadm
    rw [hany] at hoverlaps
    obtain ⟨v, free', rfl⟩ : ∃ v free', free = v :: free' := by
      have hsum := h.length
      have hmax : mapleMaxVmas = 256 := rfl
      cases free with
      | nil =>
        rw [List.length_nil] at hsum
        omega
      | cons v free' => exact ⟨v, free', rfl⟩
    obtain ⟨next, -, hchain, halloc⟩ := h.chain.alloc
    obtain ⟨n, l', hins, h'⟩ := h.insert hchain hlen hadm
    rw [AreaSet.add_of_admits hadm]
    refine ⟨_, l', free', ?_, h'⟩
    have hplace : (s.nodes root).nrEntries.toNat < mapleNodeSlots := by
      rw [h.entries.nrEntries]
      exact hlen.trans (by decide)
    have hfind : leafFindSlot mapleMaxPivots (s.nodes root) start =
        .ok (l.takeWhile fun e => decide (e.1 < start)).length := h.entries.findSlot hlen.le start
    refine (mapleAdd_inserts h.root_eq (h.descend start) hoverlaps hcount hvalid halloc).trans
      (Eq.trans (mapleInsert_place hplace hfind) ?_)
    exact congrArg (· >>= _) hins
  · rw [AreaSet.add_of_not_admits hadm]
    exact ⟨s, l, free, mapleAdd_rejects h.root_eq (h.descend start) hoverlaps
      (mt (h.admits_iff start stop flags name).mpr hadm), h⟩

/-- **`maple_remove`** does what the registry does. -/
theorem MapleState.LeafHolds.remove (h : s.LeafHolds S root l free) (start : U32) :
    ∃ s' l' free', mapleRemove mapleMaxPivots start s = .ok (s', (S.remove start).2) ∧
      s'.LeafHolds (S.remove start).1 root l' free' := by
  have hroom := h.le_room
  rcases h.entries.findStart (s := s) start with ⟨hnone, hne⟩ | ⟨l₁, e, l₂, rfl, hstart, hsome⟩
  · have hno : ∀ a ∈ S.areas, a.start ≠ start := by
      intro a ha
      rw [← h.areas] at ha
      obtain ⟨e, he, rfl⟩ := List.mem_map.mp ha
      exact hne e he
    rw [AreaSet.remove_of_forall_ne hno]
    refine ⟨s, l, free, ?_, h⟩
    simp only [mapleRemove, h.root_eq, h.descend, MapleM.ok_bind, hnone]
    rfl
  have hareas := h.areas
  rw [List.map_append, List.map_cons] at hareas
  have hmem : s.vmas e.2 ∈ S.areas := by
    rw [← hareas]
    exact List.mem_append_right _ List.mem_cons_self
  rw [← hstart, AreaSet.remove_of_mem hmem, hstart]
  obtain ⟨n', hres, -, hentries⟩ : ∃ n', leafRemoveAt mapleMaxPivots (s.nodes root) l₁.length = .ok n' ∧
      n'.parent = (s.nodes root).parent ∧ n'.HasEntries ((l₁ ++ e :: l₂).eraseIdx l₁.length) :=
    h.entries.removeAt (by simp) hroom
  have herase : (l₁ ++ e :: l₂).eraseIdx l₁.length = l₁ ++ l₂ := by
    rw [List.eraseIdx_append_of_length_le le_rfl, Nat.sub_self, List.eraseIdx_cons_zero]
  rw [herase] at hentries
  have hnodup := h.nodup
  rw [List.map_append, List.map_cons, List.append_assoc, List.cons_append] at hnodup
  have hperm : (l₁.map (·.2) ++ e.2 :: (l₂.map (·.2) ++ free)).Perm
      ((l₁ ++ l₂).map (·.2) ++ e.2 :: free) := by
    rw [List.map_append, List.append_assoc]
    exact List.perm_middle.symm.append_left _
  have hnew := hperm.nodup_iff.mp hnodup
  -- the freed entry is none of the others
  have hother : ∀ w, w ≠ e.2 → (vmaFreeEntry e.2 s).vmas w = s.vmas w := fun w hw =>
    Function.update_of_ne hw ..
  have hkeep : ∀ d ∈ l₁ ++ l₂, (vmaFreeEntry e.2 s).vmas d.2 = s.vmas d.2 := by
    intro d hd
    refine hother _ fun heq => ?_
    exact (List.nodup_append'.mp hnew).2.2 (List.mem_map_of_mem hd) (heq ▸ List.mem_cons_self)
  refine ⟨{ (vmaFreeEntry e.2 s).setNode root n' with count := s.count - 1 }, l₁ ++ l₂, e.2 :: free,
    ?_, h.root_eq, ?_, fun d hd => ?_, ?_, ?_, ?_, hnew, ?_, ?_⟩
  · have hnodes : (vmaFreeEntry e.2 s).nodes = s.nodes := rfl
    simp only [mapleRemove, h.root_eq, h.descend, MapleM.ok_bind, hsome, hnodes, hres]
    rfl
  · show (update s.nodes root n' root).HasEntries _
    rw [Function.update_self]
    exact hentries
  · show d.1 = ((vmaFreeEntry e.2 s).vmas d.2).start
    rw [hkeep d hd]
    refine h.keys d ?_
    rcases List.mem_append.mp hd with hd | hd
    exacts [List.mem_append_left _ hd, List.mem_append_right _ (List.mem_cons_of_mem _ hd)]
  · show (l₁ ++ l₂).map (fun d => (vmaFreeEntry e.2 s).vmas d.2) = _
    have hsep := S.separated
    rw [← hareas] at hsep
    rw [List.map_congr_left hkeep, AreaSet.areas_erase, ← hareas, ← hstart,
      AreaSet.filter_start_ne hsep, List.map_append]
  · show s.count - 1 = _
    rw [h.count, List.length_append, List.length_cons, List.length_append]
    omega
  · refine ⟨rfl, s.vmaFree, ?_, h.chain.congr fun w hw => hother w ?_⟩
    · show (update s.vmas e.2 { s.vmas e.2 with name := NamePtr.ofEntry s.vmaFree } e.2).name = _
      rw [Function.update_self]
    · rintro rfl
      exact (List.nodup_cons.mp (List.nodup_append'.mp hnew).2.1).1 hw
  · have hsum := h.length
    rw [List.length_append, List.length_cons] at hsum
    rw [List.length_append, List.length_cons]
    omega
  · rw [List.length_append, List.length_cons] at hroom
    rw [List.length_append]
    omega

/-- **`maple_find`** does what the registry does. -/
theorem MapleState.LeafHolds.find (h : s.LeafHolds S root l free) (addr : U32) :
    mapleFind mapleMaxPivots addr s = .ok (S.find addr) := by
  unfold mapleFind
  rw [h.root_eq]
  dsimp only
  rw [h.descend, MapleM.ok_bind]
  dsimp only
  rw [h.entries.findAddr, h.areas]
  rfl

end LeafHolds

/-- An initialised tree is an empty leaf. -/
theorem mapleInit_leafHolds (s : MapleState) :
    (mapleInit s).LeafHolds .empty 0 [] (List.range' 0 mapleMaxVmas) where
  root_eq := rfl
  entries := ⟨rfl, rfl, by simp, by simp⟩
  keys := by simp
  areas := rfl
  count := rfl
  chain := (mapleInit_oneLeaf s).chain
  nodup := by
    rw [List.map_nil]
    exact (mapleInit_oneLeaf s).nodup
  length := by
    rw [List.length_nil, List.length_range', Nat.zero_add]
  le_room := by simp

/-- **The maple tree serves the registry** as long as every `add` meets fewer than nine areas. -/
def mapleOps_within : RegistryRefinement mapleOps 9 where
  Rel s S := ∃ root l free, s.LeafHolds S root l free
  init s := ⟨0, [], _, mapleInit_leafHolds s⟩
  step := by
    rintro s S call ⟨root, l, free, h⟩ hroom
    cases call with
    | add start stop flags name =>
      obtain ⟨s', l', free', hres, h'⟩ := h.add (hroom _ _ _ _ rfl) start stop flags name
      refine ⟨s', _, _, ?_, rfl, root, l', free', h'⟩
      simp only [VmaOps.call, mapleOps, hres]
      rfl
    | remove start =>
      obtain ⟨s', l', free', hres, h'⟩ := h.remove start
      refine ⟨s', _, _, ?_, rfl, root, l', free', h'⟩
      simp only [VmaOps.call, mapleOps, hres]
      rfl
    | find addr =>
      refine ⟨s, S, .area (S.find addr), ?_, rfl, root, l, free, h⟩
      simp only [VmaOps.call, mapleOps, h.find addr]
      rfl
    | count =>
      refine ⟨s, S, .count S.areas.length, ?_, rfl, root, l, free, h⟩
      simp only [VmaOps.call, mapleOps, h.count, h.length_areas]

end Microkernel.Vma
