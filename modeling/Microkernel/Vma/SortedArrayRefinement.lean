import Microkernel.Vma.SortedArray
import Mathlib.Data.Set.Card

/-! # The sorted array refines the registry

Each operation of `vma_sorted_array.c` against the list `g_areas[0..g_count)`: an addition puts one
area into the list, a removal takes one out, a lookup reads it. The invariant that carries all of it
is that this list is separated.

* **`saOps_refines`** — the refinement of the registry.
* **`ImplementsSet`** — what it means for a state to represent a set of areas: strictly ascending,
  disjoint, and every operation acts as on the set.
* **`sa_implements_set`** — this holds in every state that is reached.
-/

namespace Microkernel.Vma

open Function (update)

/-- The array lists the areas of the registry. -/
def SaState.Lists (s : SaState) (S : AreaSet) : Prop := s.toList = S.areas

/-- The areas of the array lie apart. -/
theorem SaState.Lists.separated {s : SaState} {S : AreaSet} (h : s.Lists S) :
    Separated s.toList := h ▸ S.separated

/-- The counter is the number of areas of the set. -/
theorem SaState.Lists.count_eq {s : SaState} {S : AreaSet} (h : s.Lists S) :
    s.count = S.areas.length := by rw [← h, SaState.length_toList]

/-- The areas of the set are those in the places below the counter. -/
theorem SaState.Lists.mem_iff {s : SaState} {S : AreaSet} (h : s.Lists S) {a : VmArea} :
    a ∈ S.areas ↔ ∃ i < s.count, s.areas i = a := by rw [← h, SaState.mem_toList]

/-- The areas present are the registered ones. -/
theorem SaState.Lists.mem_present {s : SaState} {S : AreaSet} (h : s.Lists S) {a : VmArea} :
    a ∈ s.present ↔ a ∈ S.areas := h.mem_iff.symm

/-! ### Initialisation -/

/-- `sa_init` lists the empty registry. -/
theorem saInit_lists (s₀ : SaState) : (saInit s₀).Lists AreaSet.empty := rfl

/-! ### Addition -/

/-- The overlap loop finds an entry exactly when some entry in use overlaps. -/
theorem saOverlapsAny_iff {s : SaState} {x : VmArea} :
    saOverlapsAny s x.start x.stop = true ↔ ∃ i < s.count, x.Overlaps (s.areas i) := by
  simp [saOverlapsAny, VmArea.overlaps_iff]

/-- Inserting at `pos` with the tail shifted up. -/
theorem toList_insert (s : SaState) {pos : ℕ} (hpos : pos ≤ s.count) (x : VmArea) :
    SaState.toList ⟨update (saShiftUp pos s.count s.areas) pos x, s.count + 1⟩ =
      (List.range pos).map s.areas ++
        x :: (List.range (s.count - pos)).map (fun i => s.areas (pos + i)) := by
  rw [SaState.toList_eq_append _ (show pos ≤ _ by simp only; omega)]
  congr 1
  · refine List.map_congr_left fun i hi => ?_
    have hi := List.mem_range.mp hi
    simp only
    rw [Function.update_of_ne (by omega), saShiftUp_apply, if_neg (by omega)]
  · simp only
    rw [show s.count + 1 - pos = (s.count - pos) + 1 by omega, List.range_succ_eq_map,
      List.map_cons, List.map_map]
    congr 1
    · exact Function.update_self ..
    · refine List.map_congr_left fun i hi => ?_
      have hi := List.mem_range.mp hi
      rw [Function.comp_apply, Function.update_of_ne (by omega), saShiftUp_apply,
        if_pos (by omega)]
      congr 1

/-- The checks of `sa_add` are admission to the registry. -/
theorem saAdd_eq {s : SaState} {S : AreaSet} (h : s.Lists S) (start stop flags : U32)
    (name : NamePtr) :
    saAdd s start stop flags name =
      if S.Admits ⟨start, stop, flags, name⟩ then
        (⟨update (saShiftUp (saLowerBound s start) s.count s.areas) (saLowerBound s start)
          ⟨start, stop, flags, name⟩, s.count + 1⟩, 0)
      else (s, -1) := by
  have hover := saOverlapsAny_iff (s := s) (x := ⟨start, stop, flags, name⟩)
  have hadm : S.Admits ⟨start, stop, flags, name⟩ ↔
      ¬ s.count ≥ vmaMaxAreas ∧ ¬ start ≥ stop ∧
        ¬ (¬ start.PageAligned ∨ ¬ stop.PageAligned) ∧ ¬ saOverlapsAny s start stop = true := by
    rw [hover, AreaSet.Admits, VmArea.Valid, ← h.count_eq, ge_iff_le, ge_iff_le, not_le,
      BitVec.not_le, not_or, not_not, not_not, and_assoc]
    refine and_congr_right fun _ => and_congr_right fun _ => and_congr_right fun _ => ?_
    constructor
    · rintro hno ⟨i, hi, hov⟩
      exact hno _ (h.mem_iff.mpr ⟨i, hi, rfl⟩) hov
    · rintro hno b hb hov
      obtain ⟨i, hi, rfl⟩ := h.mem_iff.mp hb
      exact hno ⟨i, hi, hov⟩
  unfold saAdd
  split_ifs <;> first | rfl | (exfalso; tauto)

/-- `sa_add` is `add` on the registry. -/
theorem saAdd_lists {s : SaState} {S : AreaSet} (h : s.Lists S) (start stop flags : U32)
    (name : NamePtr) :
    (saAdd s start stop flags name).1.Lists (S.add ⟨start, stop, flags, name⟩).1 ∧
      (saAdd s start stop flags name).2 = (S.add ⟨start, stop, flags, name⟩).2 := by
  rw [saAdd_eq h]
  by_cases hadm : S.Admits ⟨start, stop, flags, name⟩
  swap
  · rw [if_neg hadm, AreaSet.add_of_not_admits hadm]
    exact ⟨h, rfl⟩
  rw [if_pos hadm, AreaSet.add_of_admits hadm]
  refine ⟨?_, rfl⟩
  -- both lists are separated and have the same members
  obtain ⟨hle, hlt, hge⟩ := saLowerBound_spec h.separated start
  have hsplit := s.toList_eq_append hle
  have hno : ∀ b ∈ s.toList, ¬ VmArea.Overlaps ⟨start, stop, flags, name⟩ b := by
    rw [h]; exact hadm.2.2
  have hlist := toList_insert s hle ⟨start, stop, flags, name⟩
  refine IntervalList.Separated.eq_of_mem_iff ?_ (S.insert _ hadm).separated fun b => ?_
  · rw [hlist]
    refine IntervalList.Separated.insert_between (hsplit ▸ h.separated) hadm.2.1.lo_lt_hi
      (hsplit ▸ hno) ?_ ?_
    · intro b hb
      obtain ⟨i, hi, rfl⟩ := List.mem_map.mp hb
      exact BitVec.le_of_lt (hlt i (List.mem_range.mp hi))
    · intro b hb
      obtain ⟨i, hi, rfl⟩ := List.mem_map.mp hb
      have hi := List.mem_range.mp hi
      exact hge _ (Nat.le_add_right _ _) (by omega)
  · rw [hlist, AreaSet.insert, AreaSet.mem_insertList, ← h, hsplit]
    simp only [List.mem_append, List.mem_cons]
    tauto

/-! ### Removal -/

/-- The entries around index `pos`. -/
theorem toList_eq_append_cons (s : SaState) {pos : ℕ} (hpos : pos < s.count) :
    s.toList = (List.range pos).map s.areas ++ s.areas pos ::
      (List.range (s.count - 1 - pos)).map (fun i => s.areas (pos + 1 + i)) := by
  rw [s.toList_eq_append hpos.le, show s.count - pos = (s.count - 1 - pos) + 1 by omega,
    List.range_succ_eq_map, List.map_cons, List.map_map]
  congr 2
  refine List.map_congr_left fun i _ => ?_
  simp only [Function.comp_apply, Nat.succ_eq_add_one]
  congr 1
  omega

/-- Removing the entry at `pos` by shifting the tail down. -/
theorem toList_remove (s : SaState) {pos : ℕ} (hpos : pos < s.count) :
    SaState.toList ⟨saShiftDown pos (s.count - 1 - pos) s.areas, s.count - 1⟩ =
      (List.range pos).map s.areas ++
        (List.range (s.count - 1 - pos)).map (fun i => s.areas (pos + 1 + i)) := by
  rw [SaState.toList_eq_append _ (show pos ≤ _ by simp only; omega)]
  congr 1 <;> refine List.map_congr_left fun i hi => ?_ <;> have hi := List.mem_range.mp hi
  · simp only
    rw [saShiftDown_apply, if_neg (by omega)]
  · simp only at hi ⊢
    rw [saShiftDown_apply, if_pos (by omega)]
    congr 1
    omega

/-- When some area starts at `start`, the lower bound is its index. -/
theorem saLowerBound_eq {s : SaState} (h : Separated s.toList) {start : U32} {i : ℕ}
    (hi : i < s.count) (hs : (s.areas i).start = start) : saLowerBound s start = i := by
  obtain ⟨hle, hlt, hge⟩ := saLowerBound_spec h start
  rcases Nat.lt_trichotomy (saLowerBound s start) i with hlo | heq | hhi
  · have h₁ := start_lt_of_separated h hlo hi
    rw [hs] at h₁
    exact absurd (hge _ le_rfl (by omega)) (BitVec.not_le.mpr h₁)
  · exact heq
  · exact absurd (hs ▸ hlt i hhi) (BitVec.lt_irrefl _)

/-- `sa_remove` is `remove` on the registry. -/
theorem saRemove_lists {s : SaState} {S : AreaSet} (h : s.Lists S) (start : U32) :
    (saRemove s start).1.Lists (S.remove start).1 ∧
      (saRemove s start).2 = (S.remove start).2 := by
  obtain ⟨hle, hlt, hge⟩ := saLowerBound_spec h.separated start
  by_cases hex : ∃ a ∈ S.areas, a.start = start
  · obtain ⟨a, ha, rfl⟩ := hex
    obtain ⟨i, hi, rfl⟩ := h.mem_iff.mp ha
    have hpos := saLowerBound_eq h.separated hi rfl
    have hcond : ¬ (i = s.count ∨ (s.areas i).start ≠ (s.areas i).start) :=
      not_or.mpr ⟨hi.ne, not_not.mpr rfl⟩
    rw [AreaSet.remove_of_mem ha]
    simp only [saRemove, hpos, if_neg hcond]
    -- the entry at `i` is the only one that starts there
    have hsplit := toList_eq_append_cons s hi
    have hsep := h.separated
    rw [hsplit] at hsep
    refine ⟨?_, trivial⟩
    rw [SaState.Lists, toList_remove s hi, AreaSet.areas_erase, ← h, hsplit]
    exact (AreaSet.filter_start_ne hsep).symm
  · have hcond : saLowerBound s start = s.count ∨
        (s.areas (saLowerBound s start)).start ≠ start := by
      by_contra hc
      obtain ⟨hne, heq⟩ := not_or.mp hc
      exact hex ⟨_, h.mem_iff.mpr ⟨_, by omega, rfl⟩, not_not.mp heq⟩
    rw [AreaSet.remove_of_forall_ne fun a ha hs => hex ⟨a, ha, hs⟩]
    simp only [saRemove, if_pos hcond]
    exact ⟨h, trivial⟩

/-! ### Lookup -/

/-- `sa_find` returns an entry exactly when that entry is in use and holds the address. -/
theorem saFind_eq_some_iff {s : SaState} (h : Separated s.toList) {addr : U32} {a : VmArea} :
    saFind s addr = some a ↔ a ∈ s.toList ∧ a.Holds addr := by
  obtain ⟨hle, hlt, hge⟩ := saUpperBound_spec h addr
  constructor
  · intro hf
    simp only [saFind] at hf
    split_ifs at hf with h₀ h₁ h₂
    obtain rfl : _ = a := by simpa using hf
    exact ⟨SaState.mem_toList.mpr ⟨_, by omega, rfl⟩, hlt _ (by omega), h₂⟩
  · rintro ⟨ha, hlo, hhi⟩
    obtain ⟨i, hi, rfl⟩ := SaState.mem_toList.mp ha
    -- the candidate is the last entry that starts at or below `addr`, and `i` is such an entry
    have hidx : i < saUpperBound s addr := by
      by_contra hc
      exact absurd (hge i (by omega) hi) (BitVec.not_lt.mpr hlo)
    have heq : i = saUpperBound s addr - 1 := by
      by_contra hne
      have hlast : saUpperBound s addr - 1 < s.count := by omega
      have hord := List.pairwise_iff_getElem.mp h.ordered i (saUpperBound s addr - 1)
        (by simpa using hi) (by simpa using hlast) (by omega)
      have hord : (s.areas i).stop ≤ (s.areas (saUpperBound s addr - 1)).start := by
        simpa [SaState.toList, VmArea.lo, VmArea.hi, BitVec.le_def] using hord
      have hle' := hlt (saUpperBound s addr - 1) (by omega)
      exact absurd (BitVec.le_trans hord hle') (BitVec.not_le.mpr hhi)
    simp only [saFind]
    rw [if_neg (by omega), if_neg (by omega), ← heq, if_pos hhi]

/-- `sa_find` is `find` on the registry. -/
theorem saFind_lists {s : SaState} {S : AreaSet} (h : s.Lists S) (addr : U32) :
    saFind s addr = S.find addr := by
  refine Option.ext fun a => ?_
  rw [saFind_eq_some_iff h.separated, AreaSet.find_eq_some_iff, ← h]

/-! ### Whole runs -/

/-- One call keeps the array and the registry together and is answered alike. -/
theorem saOps_call_lists {s : SaState} {S : AreaSet} (h : s.Lists S) (c : VmaCall) :
    ∃ s' S' o, saOps.call s c = some (s', o) ∧ AreaSet.machine.step S c = some (S', o) ∧
      s'.Lists S' := by
  cases c with
  | add start stop flags name =>
      obtain ⟨hl, hr⟩ := saAdd_lists h start stop flags name
      exact ⟨_, _, _, rfl, by rw [hr]; rfl, hl⟩
  | remove start =>
      obtain ⟨hl, hr⟩ := saRemove_lists h start
      exact ⟨_, _, _, rfl, by rw [hr]; rfl, hl⟩
  | find addr => exact ⟨s, S, _, rfl, by rw [saFind_lists h]; rfl, h⟩
  | count => exact ⟨s, S, _, rfl, by simp only [saOps, saCount, h.count_eq]; rfl, h⟩

/-- **The sorted array refines the registry.** -/
theorem saOps_refines : saOps.Refines := by
  intro s₀ calls
  obtain ⟨s, S, os, hs, hS, -⟩ := Machine.runFrom_simulation (M := saOps.machine s₀)
    (N := AreaSet.machine) (R := SaState.Lists) (fun s S c h => saOps_call_lists h c) calls
    _ _ (saInit_lists s₀)
  exact ⟨s, S, os, hs, hS⟩

/-! ### The array as a set of areas -/

/-- **The state represents a set of areas**: the entries in use are in strictly ascending order and
disjoint, and every operation acts on the set of present areas as its specification says. -/
structure SaState.ImplementsSet (s : SaState) : Prop where
  /-- Starts are strictly ascending. -/
  ascending : ∀ i j, i < j → j < s.count → (s.areas i).start < (s.areas j).start
  /-- No address is in two entries. -/
  disjoint : ∀ i j, i < s.count → j < s.count → i ≠ j →
    ∀ addr, ¬ ((s.areas i).Holds addr ∧ (s.areas j).Holds addr)
  /-- `g_count` counts the present areas. -/
  count_eq : s.present.ncard = s.count
  /-- When `sa_add` succeeds. -/
  add_ok : ∀ start stop flags name, (saAdd s start stop flags name).2 = 0 ↔
    s.present.ncard < 256 ∧ start < stop ∧ start.PageAligned ∧ stop.PageAligned ∧
      ∀ a ∈ s.present, ∀ addr, start ≤ addr → addr < stop → ¬ a.Holds addr
  /-- A successful `sa_add` adds just the new area. -/
  add_present : ∀ start stop flags name, (saAdd s start stop flags name).2 = 0 →
    (saAdd s start stop flags name).1.present = insert ⟨start, stop, flags, name⟩ s.present
  /-- A failing `sa_add` returns `-1` and changes nothing. -/
  add_fail : ∀ start stop flags name, (saAdd s start stop flags name).2 ≠ 0 →
    saAdd s start stop flags name = (s, -1)
  /-- When `sa_remove` succeeds. -/
  remove_ok : ∀ start, (saRemove s start).2 = 0 ↔ ∃ a ∈ s.present, a.start = start
  /-- A successful `sa_remove` removes just the area with that start. -/
  remove_present : ∀ start, ∀ a ∈ s.present, a.start = start →
    (saRemove s start).1.present = s.present \ {a}
  /-- A failing `sa_remove` returns `-1` and changes nothing. -/
  remove_fail : ∀ start, (saRemove s start).2 ≠ 0 → saRemove s start = (s, -1)
  /-- `sa_find` returns the present area that holds the address, and there is only one. -/
  find_some : ∀ addr a, saFind s addr = some a ↔
    (a ∈ s.present ∧ a.Holds addr) ∧ ∀ b ∈ s.present, b.Holds addr → b = a
  /-- `sa_find` returns `NULL` exactly when no present area holds the address. -/
  find_none : ∀ addr, saFind s addr = none ↔ ∀ a ∈ s.present, ¬ a.Holds addr

/-- The present areas of a state that lists a registry are as many as `g_count`. -/
theorem SaState.Lists.ncard_present {s : SaState} {S : AreaSet} (h : s.Lists S) :
    s.present.ncard = s.count := by
  classical
  have hset : s.present = (s.toList.toFinset : Set VmArea) := by
    ext a
    rw [h.mem_present, List.coe_toFinset, Set.mem_ofPred_eq, h]
  rw [hset, Set.ncard_coe_finset, List.toFinset_card_of_nodup h.separated.nodup,
    SaState.length_toList]

/-- The test of the registry for a new area, on sets of addresses. -/
theorem SaState.Lists.admits_iff {s : SaState} {S : AreaSet} (h : s.Lists S) {x : VmArea} :
    S.Admits x ↔ s.present.ncard < 256 ∧ x.start < x.stop ∧ x.start.PageAligned ∧
      x.stop.PageAligned ∧
      ∀ a ∈ s.present, ∀ addr, x.start ≤ addr → addr < x.stop → ¬ a.Holds addr := by
  rw [AreaSet.Admits, VmArea.Valid, h.ncard_present, h.count_eq, and_assoc, and_assoc]
  refine and_congr_right fun _ => and_congr_right fun hx => and_congr_right fun _ =>
    and_congr_right fun _ => ?_
  have hiff : ∀ b ∈ S.areas, (¬ x.Overlaps b ↔ ∀ addr, x.Holds addr → ¬ b.Holds addr) := by
    intro b hb
    rw [VmArea.overlaps_iff_exists_holds hx (S.separated.nonempty b hb)]
    push Not
    rfl
  constructor
  · intro hno a ha addr h₁ h₂
    exact (hiff a (h.mem_present.mp ha)).mp (hno a (h.mem_present.mp ha)) addr ⟨h₁, h₂⟩
  · intro hno b hb
    exact (hiff b hb).mpr fun addr hx => hno b (h.mem_present.mpr hb) addr hx.1 hx.2

/-- A state that lists a registry implements its set. -/
theorem SaState.Lists.implementsSet {s : SaState} {S : AreaSet} (h : s.Lists S) :
    s.ImplementsSet where
  ascending i j hij hj := start_lt_of_separated h.separated hij hj
  disjoint i j hi hj hne addr hboth := by
    have heq := h.separated.eq_of_mem_of_mem (SaState.mem_toList.mpr ⟨i, hi, rfl⟩)
      (SaState.mem_toList.mpr ⟨j, hj, rfl⟩) hboth.1.1 hboth.1.2 hboth.2.1 hboth.2.2 rfl
    rcases Nat.lt_or_gt_of_ne hne with hlt | hlt
    · exact absurd (heq ▸ start_lt_of_separated h.separated hlt hj) (BitVec.lt_irrefl _)
    · exact absurd (heq ▸ start_lt_of_separated h.separated hlt hi) (BitVec.lt_irrefl _)
  count_eq := h.ncard_present
  add_ok start stop flags name := by
    rw [(saAdd_lists h start stop flags name).2, ← h.admits_iff (x := ⟨start, stop, flags, name⟩)]
    by_cases hadm : S.Admits ⟨start, stop, flags, name⟩
    · rw [AreaSet.add_of_admits hadm]; exact iff_of_true rfl hadm
    · rw [AreaSet.add_of_not_admits hadm]; exact iff_of_false (by simp) hadm
  add_present start stop flags name hok := by
    obtain ⟨hl, hr⟩ := saAdd_lists h start stop flags name
    by_cases hadm : S.Admits ⟨start, stop, flags, name⟩
    · rw [AreaSet.add_of_admits hadm] at hl
      ext b
      rw [hl.mem_present, AreaSet.areas_insert, AreaSet.mem_insertList, Set.mem_insert_iff,
        h.mem_present]
    · rw [hr, AreaSet.add_of_not_admits hadm] at hok
      exact absurd hok (by simp)
  add_fail start stop flags name hfail := by
    have hadm : ¬ S.Admits ⟨start, stop, flags, name⟩ := fun hadm =>
      hfail (by rw [(saAdd_lists h start stop flags name).2, AreaSet.add_of_admits hadm])
    rw [saAdd_eq h, if_neg hadm]
  remove_ok start := by
    rw [(saRemove_lists h start).2]
    constructor
    · intro hok
      by_contra hno
      rw [AreaSet.remove_of_forall_ne fun a ha hs => hno ⟨a, h.mem_present.mpr ha, hs⟩] at hok
      exact absurd hok (by simp)
    · rintro ⟨a, ha, rfl⟩
      rw [AreaSet.remove_of_mem (h.mem_present.mp ha)]
  remove_present start a ha hs := by
    subst hs
    have ha := h.mem_present.mp ha
    have hl := (saRemove_lists h a.start).1
    rw [AreaSet.remove_of_mem ha] at hl
    ext b
    rw [hl.mem_present, AreaSet.areas_erase, List.mem_filter, decide_eq_true_iff, Set.mem_sdiff,
      Set.mem_singleton_iff, h.mem_present]
    -- areas of the array are told apart by their starts
    refine and_congr_right fun hb => not_congr ⟨fun hs => ?_, fun hab => by rw [hab]⟩
    exact S.separated.eq_of_lo_eq hb ha (by rw [VmArea.lo, VmArea.lo, hs])
  remove_fail start hfail := by
    simp only [saRemove] at hfail ⊢
    split_ifs at hfail ⊢ with hc
    · rfl
    · exact absurd rfl hfail
  find_some addr a := by
    rw [saFind_lists h, AreaSet.find_eq_some_iff, h.mem_present]
    refine ⟨fun ha => ⟨ha, fun b hb hold => ?_⟩, fun ha => ha.1⟩
    exact S.separated.eq_of_mem_of_mem (h.mem_present.mp hb) ha.1 hold.1 hold.2 ha.2.1 ha.2.2 rfl
  find_none addr := by
    rw [saFind_lists h, AreaSet.find_eq_none_iff]
    simp only [h.mem_present]

/-- **The sorted array implements a set of areas**: after every sequence of calls from `sa_init`
the state represents a set of areas and every further call acts on that set as specified. -/
theorem sa_implements_set (s₀ : SaState) (calls : List VmaCall) :
    ∃ s answers, (saOps.machine s₀).run calls = some (s, answers) ∧ s.ImplementsSet := by
  obtain ⟨s, os, hs, S, hS⟩ := Machine.run_invariant (M := saOps.machine s₀)
    (I := fun s => ∃ S : AreaSet, s.Lists S) ⟨_, saInit_lists s₀⟩
    (fun s c ⟨S, hS⟩ => by
      obtain ⟨s', S', o, hs, -, hl⟩ := saOps_call_lists hS c
      exact ⟨s', o, hs, S', hl⟩) calls
  exact ⟨s, os, hs, hS.implementsSet⟩

end Microkernel.Vma
