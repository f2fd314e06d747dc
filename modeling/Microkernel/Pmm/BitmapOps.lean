import Microkernel.Pmm.BitmapRegion
import Mathlib.Algebra.Order.BigOperators.Group.List
import Mathlib.Algebra.Order.Group.Nat

/-! # The calls of the bitmap allocator

What the three counters say of the bits, and that `pmm_bitmap_alloc_page`, `pmm_bitmap_free_page` and
`bitmap_mark_used_by_addr` change the bit of at most one page.

* **`Sound`** — the counters of the regions and the total agree with the bits.
* **`Marks`** — one page is marked used, or free, and nothing else changes: what the calls do is said in
  terms of it.
* **`Sound.alloc`, `Sound.free`** — an allocation fails only when no page is free, and a free of a page
  that is free, or of no page, changes nothing.
* **`Apart`** — the regions have no address in common.
-/

namespace Microkernel.Pmm

open BitmapRegion (SameRegion)

/-- A region in which page `i` has been marked used or free. -/
def BitmapRegion.mark (used : Bool) (r : BitmapRegion) (i : ℕ) : BitmapRegion :=
  if used then r.take i else r.give i

/-- Marking a page changes the bitmap and the counter of a region and nothing else. -/
theorem BitmapRegion.mark_same (used : Bool) (r : BitmapRegion) (i : ℕ) :
    SameRegion r (r.mark used i) := by
  cases used
  · exact r.give_same i
  · exact r.take_same i

/-- The bit marked answers as marked, every other as before. -/
theorem BitmapRegion.bitmapTest_mark (used : Bool) (r : BitmapRegion) (i j : ℕ) :
    (r.mark used i).bitmapTest j = if j = i then used else r.bitmapTest j := by
  cases used <;> by_cases hj : j = i <;> simp [mark, hj]

/-- Flipping a bit the right way keeps the counter equal to the number of zero bits. -/
theorem BitmapRegion.Sound.mark {r : BitmapRegion} (h : r.Sound) {used : Bool} {i : ℕ}
    (hi : i < r.pages.toNat) (hbit : r.bitmapTest i = !used) :
    (r.mark used i).Sound ∧
      (r.mark used i).free.toNat + used.toNat = r.free.toNat + (!used).toNat := by
  cases used
  · exact h.give hi hbit
  · exact h.take hi hbit

namespace BitmapPmm

variable {p p' : BitmapPmm}

/-! ### Bits and counters -/

/-- Bit `i` of region `ri`, if there is this region. -/
def bit (p : BitmapPmm) (ri i : ℕ) : Option Bool := p.regions[ri]?.map (·.bitmapTest i)

/-- `a` is the address of page `i` of region `ri`. -/
def HasPage (p : BitmapPmm) (ri i : ℕ) (a : U32) : Prop :=
  ∃ r, p.regions[ri]? = some r ∧ i < r.pages.toNat ∧ r.indexToAddr i = a

/-- A page has one address. -/
theorem HasPage.unique {p : BitmapPmm} {ri i : ℕ} {a b : U32} (h : p.HasPage ri i a)
    (h' : p.HasPage ri i b) : a = b := by
  obtain ⟨r, hr, -, rfl⟩ := h
  obtain ⟨r', hr', -, rfl⟩ := h'
  obtain rfl := Option.some.inj (hr.symm.trans hr')
  rfl

/-- **The three counters agree with the bits.** -/
structure Sound (p : BitmapPmm) : Prop where
  regions : ∀ r ∈ p.regions, r.Sound
  count : p.regions.length ≤ pmmMaxRegions
  totalFree : p.totalFree.toNat = (p.regions.map (·.free.toNat)).sum
  totalPages : p.totalPages.toNat = (p.regions.map (·.pages.toNat)).sum
  ready : p.ready = true ↔ p.regions ≠ []

/-- Lists that correspond element by element, with a middle element of one. -/
theorem forall₂_split {α β : Type*} {R : α → β → Prop} {pre post : List α} {x : α} {l : List β}
    (h : List.Forall₂ R (pre ++ x :: post) l) :
    ∃ pre' y post', l = pre' ++ y :: post' ∧ List.Forall₂ R pre pre' ∧ R x y := by
  induction pre generalizing l with
  | nil =>
    cases h with
    | cons hx hpost => exact ⟨[], _, _, rfl, .nil, hx⟩
  | cons z pre ih =>
    cases h with
    | cons hz h =>
      obtain ⟨pre', y, post', rfl, hpre, hx⟩ := ih h
      exact ⟨_ :: pre', y, post', rfl, .cons hz hpre, hx⟩

/-- An element of the left list stands beside a related one of the right list. -/
theorem forall₂_mem {α β : Type*} {R : α → β → Prop} {l : List α} {l' : List β} {x : α}
    (h : List.Forall₂ R l l') (hx : x ∈ l) : ∃ y ∈ l', R x y := by
  obtain ⟨pre, post, rfl⟩ := List.append_of_mem hx
  obtain ⟨pre', y, post', rfl, -, hxy⟩ := forall₂_split h
  exact ⟨y, by simp, hxy⟩

/-- Relations element by element compose. -/
theorem forall₂_comp {α β γ : Type*} {R : α → β → Prop} {S : β → γ → Prop} {T : α → γ → Prop}
    (hT : ∀ x y z, R x y → S y z → T x z) {l₁ : List α} {l₂ : List β} {l₃ : List γ}
    (h : List.Forall₂ R l₁ l₂) (h' : List.Forall₂ S l₂ l₃) : List.Forall₂ T l₁ l₃ := by
  induction h generalizing l₃ with
  | nil =>
    cases h'
    exact .nil
  | cons hx _ ih =>
    cases h' with
    | cons hy h' => exact .cons (hT _ _ _ hx hy) (ih h')

/-- Everything but the bits and the counters of free pages is the same. -/
structure SamePmm (p p' : BitmapPmm) : Prop where
  regions : List.Forall₂ SameRegion p.regions p'.regions
  totalPages : p'.totalPages = p.totalPages
  ready : p'.ready = p.ready

/-- An allocator describes the same pages as itself. -/
theorem SamePmm.refl (p : BitmapPmm) : SamePmm p p :=
  ⟨List.forall₂_same.mpr fun r _ => .refl r, rfl, rfl⟩

/-- Describing the same pages is transitive. -/
theorem SamePmm.trans {p₁ p₂ p₃ : BitmapPmm} (h : SamePmm p₁ p₂) (h' : SamePmm p₂ p₃) :
    SamePmm p₁ p₃ :=
  ⟨forall₂_comp (fun _ _ _ hr hr' => hr.trans hr') h.regions h'.regions,
    h'.totalPages.trans h.totalPages, h'.ready.trans h.ready⟩

/-- And symmetric. -/
theorem SamePmm.symm (h : SamePmm p p') : SamePmm p' p := by
  refine ⟨?_, h.totalPages.symm, h.ready.symm⟩
  exact h.regions.flip.imp fun _ _ hr => hr.symm

/-- A region in the middle of the list. -/
theorem SamePmm.split (h : SamePmm p p') {pre post : List BitmapRegion} {r : BitmapRegion}
    (hregions : p.regions = pre ++ r :: post) :
    ∃ pre' r' post', p'.regions = pre' ++ r' :: post' ∧ List.Forall₂ SameRegion pre pre' ∧
      SameRegion r r' :=
  forall₂_split (hregions ▸ h.regions)

/-- Allocators that describe the same pages have the same addresses for them. -/
theorem SamePmm.hasPage (h : SamePmm p p') {ri i : ℕ} {a : U32} (hpage : p.HasPage ri i a) :
    p'.HasPage ri i a := by
  obtain ⟨r, hr, hi, haddr⟩ := hpage
  obtain ⟨hlt, hget⟩ := List.getElem?_eq_some_iff.mp hr
  have hsplit : p.regions = p.regions.take ri ++ r :: p.regions.drop (ri + 1) := by
    rw [← hget, List.cons_getElem_drop_succ, List.take_append_drop]
  obtain ⟨pre', r', post', hregions', hpre, hsame⟩ := h.split hsplit
  have hlen : pre'.length = ri := by
    rw [← hpre.length_eq, List.length_take, min_eq_left hlt.le]
  refine ⟨r', by simp [hregions', ← hlen], ?_, ?_⟩
  · rwa [hsame.pages]
  · rw [← haddr, BitmapRegion.indexToAddr, hsame.base]
    rfl

/-- **One page is marked**: page `i` of region `ri`, at address `a`, is used (or free) now and was not
before. -/
structure Marks (used : Bool) (p p' : BitmapPmm) (ri i : ℕ) (a : U32) : Prop where
  update : ∃ pre r post, p.regions = pre ++ r :: post ∧ pre.length = ri ∧ i < r.pages.toNat ∧
    r.bitmapTest i = (!used) ∧ r.indexToAddr i = a ∧ p'.regions = pre ++ r.mark used i :: post
  totalFree : p'.totalFree = if used then p.totalFree - 1#32 else p.totalFree + 1#32
  totalPages : p'.totalPages = p.totalPages
  ready : p'.ready = p.ready

variable {used : Bool} {ri i : ℕ} {a : U32}

/-- Marking a page changes no region but for a bit and a counter. -/
theorem Marks.same (h : Marks used p p' ri i a) : SamePmm p p' := by
  obtain ⟨pre, r, post, hregions, -, -, -, -, hregions'⟩ := h.update
  refine ⟨?_, h.totalPages, h.ready⟩
  rw [hregions, hregions']
  have hsame : ∀ l : List BitmapRegion, List.Forall₂ SameRegion l l := fun l =>
    List.forall₂_same.mpr fun r _ => .refl r
  exact List.rel_append (hsame pre) (.cons (r.mark_same used i) (hsame post))

/-- The page marked was a page of the allocator. -/
theorem Marks.hasPage (h : Marks used p p' ri i a) : p.HasPage ri i a := by
  obtain ⟨pre, r, post, hregions, rfl, hi, -, haddr, -⟩ := h.update
  exact ⟨r, by simp [hregions], hi, haddr⟩

/-- The bit was the other way before. -/
theorem Marks.bit_before (h : Marks used p p' ri i a) : p.bit ri i = some (!used) := by
  obtain ⟨pre, r, post, hregions, rfl, -, hbit, -, -⟩ := h.update
  simp [bit, hregions, hbit]

/-- The bits afterwards. -/
theorem Marks.bit (h : Marks used p p' ri i a) (rj j : ℕ) :
    p'.bit rj j = if rj = ri ∧ j = i then some used else p.bit rj j := by
  obtain ⟨pre, r, post, hregions, rfl, -, -, -, hregions'⟩ := h.update
  unfold BitmapPmm.bit
  rw [hregions, hregions']
  by_cases hrj : rj = pre.length
  · subst hrj
    by_cases hj : j = i
    · simp [hj, BitmapRegion.bitmapTest_mark]
    · simp [hj, BitmapRegion.bitmapTest_mark]
  · rw [if_neg fun hboth => hrj hboth.1]
    rcases Nat.lt_or_gt_of_ne hrj with hlt | hgt
    · rw [List.getElem?_append_left hlt, List.getElem?_append_left hlt]
    · rw [List.getElem?_append_right hgt.le, List.getElem?_append_right hgt.le,
        List.getElem?_cons, List.getElem?_cons, if_neg (by omega), if_neg (by omega)]

/-- A sum over the regions of numbers of pages. -/
theorem sum_regions_le {regions : List BitmapRegion} {f : BitmapRegion → ℕ}
    (hcount : regions.length ≤ pmmMaxRegions) (hf : ∀ r ∈ regions, f r < 2 ^ 20) :
    (regions.map f).sum ≤ 2 ^ 25 := by
  have hsum : (regions.map f).sum ≤ (regions.map f).length * 2 ^ 20 := by
    apply List.sum_le_card_nsmul
    rw [List.forall_mem_map]
    exact fun r hr => (hf r hr).le
  rw [List.length_map] at hsum
  exact hsum.trans (Nat.mul_le_mul_right (2 ^ 20) hcount)

/-- At most 32 regions of less than `2 ^ 20` pages: the total never comes near a wrap. -/
theorem Sound.totalFree_le (h : p.Sound) : p.totalFree.toNat ≤ 2 ^ 25 := by
  rw [h.totalFree]
  refine sum_regions_le h.count fun r hr => ?_
  rw [(h.regions r hr).free]
  exact lt_of_le_of_lt r.zeroBits_le (h.regions r hr).pages_lt

/-- The total is at least the counter of any one region. -/
theorem Sound.free_le (h : p.Sound) {r : BitmapRegion} (hr : r ∈ p.regions) :
    r.free.toNat ≤ p.totalFree.toNat := by
  rw [h.totalFree]
  exact List.single_le_sum (fun _ _ => Nat.zero_le _) _ (List.mem_map_of_mem hr)

/-- Marking a page keeps the counters right. -/
theorem Sound.marks (h : p.Sound) (hmarks : Marks used p p' ri i a) : p'.Sound := by
  have hready := hmarks.ready
  have hpages := hmarks.totalPages
  have htotal := hmarks.totalFree
  obtain ⟨pre, r, post, hregions, -, hi, hbit, -, hregions'⟩ := hmarks.update
  have hmem : r ∈ p.regions := by simp [hregions]
  obtain ⟨hsound, hfree⟩ := (h.regions r hmem).mark hi hbit
  have hsum := h.totalFree
  have hlt := h.totalFree_le
  rw [hsum] at hlt
  constructor
  · intro r' hr'
    rw [hregions', List.mem_append, List.mem_cons] at hr'
    rcases hr' with hr' | rfl | hr'
    · exact h.regions r' (by simp [hregions, hr'])
    · exact hsound
    · exact h.regions r' (by simp [hregions, hr'])
  · have hcount := h.count
    rw [hregions] at hcount
    rw [hregions']
    simpa using hcount
  · rw [hregions, List.map_append, List.map_cons, List.sum_append, List.sum_cons] at hsum hlt
    rw [hregions', List.map_append, List.map_cons, List.sum_append, List.sum_cons, htotal]
    -- the counter is one word: neither step wraps, for the page's bit was the other one
    cases used
    · simp only [Bool.toNat_false, Bool.not_false, Bool.toNat_true, Nat.add_zero] at hfree
      simp only [Bool.false_eq_true, if_false]
      bv_omega
    · simp only [Bool.toNat_true, Bool.not_true, Bool.toNat_false, Nat.add_zero] at hfree
      simp only [if_true]
      bv_omega
  · have hsumPages := h.totalPages
    rw [hregions, List.map_append, List.map_cons, List.sum_append, List.sum_cons] at hsumPages
    rw [hregions', List.map_append, List.map_cons, List.sum_append, List.sum_cons, hpages, hsumPages,
      (r.mark_same used i).pages]
  · rw [hready, h.ready, hregions, hregions']
    simp

/-- No page is free exactly when the counter is zero. -/
theorem Sound.totalFree_eq_zero_iff (h : p.Sound) :
    p.totalFree = 0#32 ↔ ∀ r ∈ p.regions, r.free = 0#32 := by
  rw [← BitVec.toNat_inj, h.totalFree]
  show (p.regions.map (·.free.toNat)).sum = 0 ↔ _
  rw [List.sum_eq_zero_iff_forall_eq_nat, List.forall_mem_map]
  refine forall₂_congr fun r _ => ?_
  rw [← BitVec.toNat_inj]
  rfl

/-- Page `i` of region `ri` is free. -/
def IsFree (p : BitmapPmm) (ri i : ℕ) : Prop := (∃ a, p.HasPage ri i a) ∧ p.bit ri i = some false

/-- A page is free when its bit is zero. -/
theorem isFree_iff : p.IsFree ri i ↔
    ∃ r, p.regions[ri]? = some r ∧ i < r.pages.toNat ∧ r.bitmapTest i = false := by
  constructor
  · rintro ⟨⟨a, r, hr, hi, -⟩, hbit⟩
    rw [BitmapPmm.bit, hr, Option.map_some] at hbit
    exact ⟨r, hr, hi, Option.some.inj hbit⟩
  · rintro ⟨r, hr, hi, hbit⟩
    refine ⟨⟨r.indexToAddr i, r, hr, hi, rfl⟩, ?_⟩
    rw [BitmapPmm.bit, hr, Option.map_some, hbit]

/-- A page is free exactly when the total says so, which is what the allocation tests first. -/
theorem Sound.exists_isFree_iff (h : p.Sound) : (∃ ri i, p.IsFree ri i) ↔ p.totalFree ≠ 0#32 := by
  rw [ne_eq, h.totalFree_eq_zero_iff]
  simp only [isFree_iff]
  constructor
  · rintro ⟨ri, i, r, hr, hi, hbit⟩ hall
    have hmem := List.mem_of_getElem? hr
    exact (h.regions r hmem).free_pos_iff.mpr ⟨i, hi, hbit⟩ (hall r hmem)
  · intro hne
    push Not at hne
    obtain ⟨r, hmem, hr⟩ := hne
    obtain ⟨ri, hri⟩ := List.getElem?_of_mem hmem
    obtain ⟨i, hi, hbit⟩ := (h.regions r hmem).free_pos_iff.mp hr
    exact ⟨ri, i, r, hri, hi, hbit⟩

/-! ### Allocation -/

/-- The offsets of a round-robin search come to every index. -/
theorem exists_offset (rr : ℕ) {n ri : ℕ} (hri : ri < n) : ∃ k < n, (rr + k) % n = ri := by
  have hdiv := Nat.div_add_mod rr n
  have hmod := Nat.mod_lt rr (by omega : 0 < n)
  by_cases hle : rr % n ≤ ri
  · refine ⟨ri - rr % n, by omega, ?_⟩
    rw [show rr + (ri - rr % n) = ri + n * (rr / n) by omega, Nat.add_mul_mod_self_left,
      Nat.mod_eq_of_lt hri]
  · refine ⟨ri + n - rr % n, by omega, ?_⟩
    rw [show rr + (ri + n - rr % n) = ri + n + n * (rr / n) by omega, Nat.add_mul_mod_self_left,
      Nat.add_mod_right, Nat.mod_eq_of_lt hri]

/-- The search over the regions finds a free page in the regions that are left. -/
theorem Sound.allocScan (h : p.Sound) (n off : ℕ) :
    (∀ q, bitmapAllocScan p n off = some q → ∃ ri i, Marks true p q.1 ri i q.2) ∧
      (bitmapAllocScan p n off = none →
        ∀ k < n, ∀ r, p.regions[(p.rr + (off + k)) % p.regions.length]? = some r → r.free = 0#32) := by
  induction n generalizing off with
  | zero =>
    constructor
    · intro q hq
      cases hq
    · intro _ k hk
      exact absurd hk (Nat.not_lt_zero k)
  | succ n ih =>
    rw [bitmapAllocScan]
    dsimp only
    cases hr : p.regions[(p.rr + off) % p.regions.length]? with
    | none =>
      rw [Option.bind_none, Option.none_or]
      refine ⟨(ih _).1, fun hnone k hk r hrk => ?_⟩
      rcases k with _ | k
      · rw [Nat.add_zero, hr] at hrk
        cases hrk
      · exact (ih _).2 hnone k (by omega) r (by rwa [Nat.add_right_comm off 1 k, Nat.add_assoc off k 1])
    | some r =>
      rw [Option.bind_some]
      by_cases hfree : r.free = 0#32
      · rw [if_pos hfree, Option.none_or]
        refine ⟨(ih _).1, fun hnone k hk r' hrk => ?_⟩
        rcases k with _ | k
        · rw [Nat.add_zero, hr] at hrk
          obtain rfl := Option.some.inj hrk
          exact hfree
        · exact (ih _).2 hnone k (by omega) r' (by rwa [Nat.add_right_comm off 1 k, Nat.add_assoc off k 1])
      · -- this region has a free page
        have hmem := List.mem_of_getElem? hr
        obtain ⟨i, hfind, hi, hbit⟩ := (h.regions r hmem).findFreeIndex hfree
        have hpos : p.totalFree > 0#32 := by
          have hle := h.free_le hmem
          bv_omega
        rw [if_neg hfree, hfind, Option.map_some, Option.some_or, if_pos hpos]
        refine ⟨fun q hq => ?_, fun hnone => by cases hnone⟩
        obtain rfl := Option.some.inj hq
        obtain ⟨hlt, hget⟩ := List.getElem?_eq_some_iff.mp hr
        refine ⟨(p.rr + off) % p.regions.length, i, ⟨p.regions.take ((p.rr + off) % p.regions.length), r,
          p.regions.drop ((p.rr + off) % p.regions.length + 1), ?_, ?_, hi, hbit, rfl, ?_⟩, rfl, rfl, rfl⟩
        · rw [← hget, List.cons_getElem_drop_succ, List.take_append_drop]
        · rw [List.length_take, min_eq_left hlt.le]
        · show p.regions.set _ _ = _
          rw [List.set_eq_take_append_cons_drop, if_pos hlt]
          rfl

/-- **`pmm_bitmap_alloc_page` fails only when no page is free**, and otherwise takes a free page. -/
theorem Sound.alloc (h : p.Sound) :
    (pmmBitmapAllocPage p = (p, 0#32) ∧ ∀ ri i, ¬ p.IsFree ri i) ∨
      ∃ ri i, Marks true p (pmmBitmapAllocPage p).1 ri i (pmmBitmapAllocPage p).2 := by
  rw [pmmBitmapAllocPage]
  by_cases hfree : p.totalFree = 0#32
  · left
    rw [if_pos hfree, ite_self]
    exact ⟨rfl, fun ri i hisFree => h.exists_isFree_iff.mp ⟨ri, i, hisFree⟩ hfree⟩
  right
  obtain ⟨ri, i, hisFree⟩ := h.exists_isFree_iff.mpr hfree
  obtain ⟨r, hr, hi, hbit⟩ := isFree_iff.mp hisFree
  have hmem := List.mem_of_getElem? hr
  have hlen : 0 < p.regions.length := List.length_pos_of_mem hmem
  have hguard : ¬ (¬ p.ready = true ∨ p.regions.length = 0 ∨ p.totalPages = 0#32) := by
    rintro (hready | hzero | hpages)
    · exact hready (h.ready.mpr (List.ne_nil_of_mem hmem))
    · omega
    · have hsum := h.totalPages
      have hle : r.pages.toNat ≤ (p.regions.map (·.pages.toNat)).sum :=
        List.single_le_sum (fun _ _ => Nat.zero_le _) _ (List.mem_map_of_mem hmem)
      rw [hpages] at hsum
      have : (0#32).toNat = 0 := rfl
      omega
  rw [if_neg hguard, if_neg hfree]
  obtain ⟨hsome, hnone⟩ := h.allocScan p.regions.length 0
  cases hscan : bitmapAllocScan p p.regions.length 0 with
  | some q => exact hsome q hscan
  | none =>
    -- the search comes to every region
    obtain ⟨hri, -⟩ := List.getElem?_eq_some_iff.mp hr
    obtain ⟨k, hk, heq⟩ := exists_offset p.rr hri
    rw [← Nat.zero_add k] at heq
    have hzero := hnone hscan k hk r (by rwa [heq])
    exact absurd hzero ((h.regions r hmem).free_pos_iff.mpr ⟨i, hi, hbit⟩)

/-! ### Pages found by their address -/

/-- Region `ri` is the first that contains `a`, and `a` is in its page `i`. -/
def Owns (p : BitmapPmm) (ri i : ℕ) (a : U32) : Prop :=
  ∃ pre r post, p.regions = pre ++ r :: post ∧ pre.length = ri ∧ i = r.addrToIndex a ∧
    (∀ r' ∈ pre, r'.containsAddr a = false) ∧ r.containsAddr a = true

/-- The loops over the regions change the first region that contains the address. -/
theorem atRegionOf_cases (a : U32) (f : BitmapRegion → U32 → BitmapRegion × U32) (t : U32)
    (l : List BitmapRegion) :
    (∀ r ∈ l, r.containsAddr a = false) ∧ Pmm.atRegionOf a f t l = (l, t) ∨
      ∃ pre r post, l = pre ++ r :: post ∧ (∀ r' ∈ pre, r'.containsAddr a = false) ∧
        r.containsAddr a = true ∧ Pmm.atRegionOf a f t l = (pre ++ (f r t).1 :: post, (f r t).2) := by
  induction l with
  | nil => exact .inl ⟨fun _ hr => absurd hr List.not_mem_nil, rfl⟩
  | cons r l ih =>
    rw [Pmm.atRegionOf]
    by_cases hr : r.containsAddr a = true
    · rw [if_pos hr]
      exact .inr ⟨[], r, l, rfl, fun _ hr => absurd hr List.not_mem_nil, hr, rfl⟩
    · have hr' : r.containsAddr a = false := by simpa using hr
      rw [if_neg hr]
      rcases ih with ⟨hnone, heq⟩ | ⟨pre, r₁, post, rfl, hpre, hr₁, heq⟩
      · left
        refine ⟨fun r' hmem => ?_, by rw [heq]⟩
        rcases List.mem_cons.mp hmem with rfl | hmem
        exacts [hr', hnone r' hmem]
      · right
        refine ⟨r :: pre, r₁, post, rfl, fun r' hmem => ?_, hr₁, by rw [heq]; rfl⟩
        rcases List.mem_cons.mp hmem with rfl | hmem
        exacts [hr', hpre r' hmem]

/-- A page is found where it was found before. -/
theorem SamePmm.owns (h : SamePmm p p') (howns : p.Owns ri i a) : p'.Owns ri i a := by
  obtain ⟨pre, r, post, hregions, rfl, rfl, hnone, hr⟩ := howns
  obtain ⟨pre', r', post', hregions', hpre, hsame⟩ := h.split hregions
  refine ⟨pre', r', post', hregions', hpre.length_eq.symm, ?_, fun x hx => ?_, ?_⟩
  · rw [BitmapRegion.addrToIndex, BitmapRegion.addrToIndex, hsame.base]
  · obtain ⟨y, hy, hxy⟩ := forall₂_mem hpre.flip hx
    rw [← hnone y hy]
    exact hxy.containsAddr a
  · rw [← hr]
    exact hsame.containsAddr a

/-- A page is found in one place. -/
theorem Owns.unique {rj j : ℕ} (h : p.Owns ri i a) (h' : p.Owns rj j a) : ri = rj ∧ i = j := by
  obtain ⟨pre, r, post, hregions, rfl, rfl, hpre, hr⟩ := h
  obtain ⟨pre', r', post', hregions', rfl, rfl, hpre', hr'⟩ := h'
  have hsplit := hregions.symm.trans hregions'
  rcases List.append_eq_append_iff.mp hsplit with ⟨mid, rfl, hmid⟩ | ⟨mid, rfl, hmid⟩
  · cases mid with
    | nil =>
      obtain ⟨rfl, -⟩ := List.cons.inj hmid
      simp
    | cons x mid =>
      obtain ⟨rfl, -⟩ := List.cons.inj hmid
      rw [hpre' r (by simp)] at hr
      cases hr
  · cases mid with
    | nil =>
      obtain ⟨rfl, -⟩ := List.cons.inj hmid
      simp
    | cons x mid =>
      obtain ⟨rfl, -⟩ := List.cons.inj hmid
      rw [hpre r' (by simp)] at hr'
      cases hr'

/-- A loop that marks the page it finds, when it is not marked already. -/
theorem Sound.atRegionOf (h : p.Sound) (ha : a.PageAligned)
    {f : BitmapRegion → U32 → BitmapRegion × U32}
    (hf : ∀ r ∈ p.regions, r.containsAddr a = true → f r p.totalFree =
      if r.bitmapTest (r.addrToIndex a) = used then (r, p.totalFree)
      else (r.mark used (r.addrToIndex a),
        if used then p.totalFree - 1#32 else p.totalFree + 1#32)) :
    p.atRegionOf a f = p ∧ (∀ ri i, p.Owns ri i a → p.bit ri i = some used) ∨
      ∃ ri i, p.Owns ri i a ∧ Marks used p (p.atRegionOf a f) ri i a := by
  unfold BitmapPmm.atRegionOf
  dsimp only
  -- the loop stops at the first region that contains the address, which owns the page
  rcases atRegionOf_cases a f p.totalFree p.regions with
    ⟨hnone, heq⟩ | ⟨pre, r, post, hregions, hpre, hr, heq⟩
  · left
    rw [heq]
    refine ⟨rfl, fun ri i ⟨pre, r, post, hregions, _, _, _, hr⟩ => ?_⟩
    rw [hnone r (by simp [hregions])] at hr
    cases hr
  · have hmem : r ∈ p.regions := by simp [hregions]
    obtain ⟨hi, haddr⟩ := (h.regions r hmem).toShape.addrToIndex ha hr
    have howns : p.Owns pre.length (r.addrToIndex a) a := ⟨pre, r, post, hregions, rfl, rfl, hpre, hr⟩
    rw [heq, hf r hmem hr]
    by_cases hbit : r.bitmapTest (r.addrToIndex a) = used
    · left
      rw [if_pos hbit, ← hregions]
      refine ⟨rfl, fun ri i hri => ?_⟩
      obtain ⟨rfl, rfl⟩ := hri.unique howns
      simp [BitmapPmm.bit, hregions, hbit]
    · right
      rw [if_neg hbit]
      have hbit' : r.bitmapTest (r.addrToIndex a) = !used := Bool.eq_not_of_ne hbit
      exact ⟨pre.length, _, howns, ⟨pre, r, post, hregions, rfl, hi, hbit', haddr, rfl⟩, rfl, rfl, rfl⟩

/-- **`pmm_bitmap_free_page` frees the page it finds**, when it is used, and otherwise changes
nothing. -/
theorem Sound.free (h : p.Sound) (a : U32) :
    (pmmBitmapFreePage a p = p ∧
        ∀ ri i, a ≠ 0#32 → a.PageAligned → p.Owns ri i a → p.bit ri i = some false) ∨
      ∃ ri i, p.Owns ri i a ∧ Marks false p (pmmBitmapFreePage a p) ri i a := by
  rw [pmmBitmapFreePage]
  by_cases hguard : ¬ p.ready = true ∨ a = 0#32
  · refine .inl ⟨if_pos hguard, fun ri i hne _ howns => ?_⟩
    -- an allocator that is not ready has no regions
    obtain ⟨pre, r, post, hregions, -⟩ := howns
    have hready := h.ready.mpr (by simp [hregions])
    exact absurd hguard (by simp [hready, hne])
  rw [if_neg hguard]
  by_cases ha : a.PageAligned
  · rw [if_neg (not_not.mpr ha)]
    have hrelease : p.atRegionOf a (BitmapRegion.release a) = p ∧
          (∀ ri i, p.Owns ri i a → p.bit ri i = some false) ∨
        ∃ ri i, p.Owns ri i a ∧ Marks false p (p.atRegionOf a (BitmapRegion.release a)) ri i a := by
      refine h.atRegionOf ha fun r hmem hr => ?_
      rw [(h.regions r hmem).toShape.release ha hr]
      cases r.bitmapTest (r.addrToIndex a) <;> rfl
    exact hrelease.imp (fun hsame => ⟨hsame.1, fun ri i _ _ => hsame.2 ri i⟩) id
  · rw [if_pos ha]
    exact .inl ⟨rfl, fun ri i _ haligned => absurd haligned ha⟩

/-- `bitmap_mark_used_by_addr` marks the page that it finds used, unless it is. -/
theorem Sound.markUsedByAddr (h : p.Sound) (ha : a.PageAligned) :
    bitmapMarkUsedByAddr a p = p ∧ (∀ ri i, p.Owns ri i a → p.bit ri i = some true) ∨
      ∃ ri i, p.Owns ri i a ∧ Marks true p (bitmapMarkUsedByAddr a p) ri i a := by
  rw [bitmapMarkUsedByAddr]
  by_cases hready : p.ready = true
  · rw [if_neg (not_not.mpr hready), if_pos ha]
    refine h.atRegionOf ha fun r hmem hr => ?_
    rw [(h.regions r hmem).markUsed ha hr (h.free_le hmem)]
    cases r.bitmapTest (r.addrToIndex a) <;> rfl
  · rw [if_pos hready]
    refine .inl ⟨rfl, fun ri i ⟨pre, r, post, hregions, _⟩ => ?_⟩
    -- without regions there is no page
    have hnil : p.regions = [] := by
      by_contra hne
      exact hready (h.ready.mpr hne)
    rw [hregions] at hnil
    simp at hnil

/-! ### Regions apart -/

/-- No two pages have one address. -/
def Distinct (p : BitmapPmm) : Prop :=
  ∀ ri i rj j a, p.HasPage ri i a → p.HasPage rj j a → ri = rj ∧ i = j

/-- Every region ends in the address space, starts at 1 MiB or above, and has no address in common with
another one. -/
structure Apart (p : BitmapPmm) : Prop where
  fits : ∀ r ∈ p.regions, r.Fits
  low : ∀ r ∈ p.regions, 2 ^ 20 ≤ r.base.toNat
  disjoint : p.regions.Pairwise fun r r' =>
    r.base.toNat + r.pages.toNat * 4096 ≤ r'.base.toNat ∨
      r'.base.toNat + r'.pages.toNat * 4096 ≤ r.base.toNat

/-- A relation between the regions that only depends on where they are. -/
theorem SamePmm.pairwise (h : SamePmm p p') {S : BitmapRegion → BitmapRegion → Prop}
    (hS : ∀ r₁ r₂ r₁' r₂', SameRegion r₁ r₁' → SameRegion r₂ r₂' → S r₁ r₂ → S r₁' r₂')
    (hpair : p.regions.Pairwise S) : p'.regions.Pairwise S := by
  have hsame := h.regions
  generalize p.regions = l at hsame hpair
  generalize p'.regions = l' at hsame
  induction hsame with
  | nil => exact .nil
  | cons hr hl ih =>
    rw [List.pairwise_cons] at hpair ⊢
    refine ⟨fun r' hr' => ?_, ih hpair.2⟩
    obtain ⟨r₂, hr₂, hsame₂⟩ := forall₂_mem hl.flip hr'
    exact hS _ _ _ _ hr hsame₂ (hpair.1 r₂ hr₂)

/-- Being apart is a matter of the headers. -/
theorem Apart.of_same (h : p.Apart) (hsame : SamePmm p p') : p'.Apart := by
  refine ⟨fun r' hr' => ?_, fun r' hr' => ?_, hsame.pairwise ?_ h.disjoint⟩
  · obtain ⟨r, hr, hrr⟩ := forall₂_mem hsame.regions.flip hr'
    unfold BitmapRegion.Fits
    rw [hrr.base, hrr.pages]
    exact h.fits r hr
  · obtain ⟨r, hr, hrr⟩ := forall₂_mem hsame.regions.flip hr'
    rw [hrr.base]
    exact h.low r hr
  · intro r₁ r₂ r₁' r₂' h₁ h₂ hS
    rwa [h₁.base, h₁.pages, h₂.base, h₂.pages]

/-- The address of a page as a number. -/
theorem Apart.hasPage_toNat (h : p.Apart) (hpage : p.HasPage ri i a) :
    ∃ r, p.regions[ri]? = some r ∧ i < r.pages.toNat ∧ a.toNat = r.base.toNat + i * 4096 := by
  obtain ⟨r, hr, hi, rfl⟩ := hpage
  exact ⟨r, hr, hi, (h.fits r (List.mem_of_getElem? hr)).indexToAddr hi⟩

/-- No page of regions that are apart is at address zero, so an address given is never `NULL`. -/
theorem Apart.ne_zero (h : p.Apart) (hpage : p.HasPage ri i a) : a ≠ 0#32 := by
  obtain ⟨r, hr, hi, ha⟩ := h.hasPage_toNat hpage
  have hlow := h.low r (List.mem_of_getElem? hr)
  rintro rfl
  have hzero : (0#32).toNat = 0 := rfl
  omega

/-- An address lies in one region. -/
theorem Apart.region_unique (h : p.Apart) {rj : ℕ} {r r' : BitmapRegion} {x : ℕ}
    (hr : p.regions[ri]? = some r) (hr' : p.regions[rj]? = some r')
    (hx : r.base.toNat ≤ x ∧ x < r.base.toNat + r.pages.toNat * 4096)
    (hx' : r'.base.toNat ≤ x ∧ x < r'.base.toNat + r'.pages.toNat * 4096) : ri = rj := by
  obtain ⟨hri, rfl⟩ := List.getElem?_eq_some_iff.mp hr
  obtain ⟨hrj, rfl⟩ := List.getElem?_eq_some_iff.mp hr'
  have hpair := List.pairwise_iff_getElem.mp h.disjoint
  rcases Nat.lt_trichotomy ri rj with hlt | heq | hgt
  · have := hpair ri rj hri hrj hlt
    omega
  · exact heq
  · have := hpair rj ri hrj hri hgt
    omega

/-- Regions that are apart give every page its own address. -/
theorem Apart.distinct (h : p.Apart) : p.Distinct := by
  intro ri i rj j a hi hj
  obtain ⟨r, hr, hir, ha⟩ := h.hasPage_toNat hi
  obtain ⟨r', hr', hjr, ha'⟩ := h.hasPage_toNat hj
  obtain rfl := h.region_unique (x := a.toNat) hr hr' (by omega) (by omega)
  rw [hr] at hr'
  obtain rfl := Option.some.inj hr'
  exact ⟨rfl, by omega⟩

/-- Every page is found at its address. -/
theorem Apart.owns (h : p.Apart) (hsound : p.Sound) (hpage : p.HasPage ri i a) : p.Owns ri i a := by
  obtain ⟨r, hr, hi, ha⟩ := h.hasPage_toNat hpage
  obtain ⟨hlt, hget⟩ := List.getElem?_eq_some_iff.mp hr
  have hmem := List.mem_of_getElem? hr
  have hshape := (hsound.regions r hmem).toShape
  have haddr : a = r.indexToAddr i :=
    BitVec.eq_of_toNat_eq (ha.trans ((h.fits r hmem).indexToAddr hi).symm)
  have hcontains : r.containsAddr a = true := by
    rw [haddr]
    exact hshape.containsAddr_indexToAddr (h.fits r hmem) hi
  refine ⟨p.regions.take ri, r, p.regions.drop (ri + 1), ?_, ?_, ?_, fun r' hr' => ?_, hcontains⟩
  · rw [← hget, List.cons_getElem_drop_succ, List.take_append_drop]
  · rw [List.length_take, min_eq_left hlt.le]
  · obtain ⟨hi', haddr'⟩ := hshape.addrToIndex (haddr ▸ hshape.indexToAddr_aligned hi) hcontains
    exact hshape.indexToAddr_inj hi hi' (haddr.symm.trans haddr'.symm)
  · -- a region in front that contains the address would be this one
    by_contra hin
    obtain ⟨rj, hrj⟩ := List.getElem?_of_mem hr'
    have hltj : rj < ri := by
      have := (List.getElem?_eq_some_iff.mp hrj).1
      rw [List.length_take] at this
      omega
    rw [List.getElem?_take_of_lt hltj] at hrj
    have hmem' := List.mem_of_getElem? hrj
    have hrange := ((hsound.regions r' hmem').toShape.containsAddr_iff a).mp (by simpa using hin)
    have := h.region_unique (x := a.toNat) hr hrj (by omega) hrange.2
    omega

end BitmapPmm

end Microkernel.Pmm
