import Microkernel.Heap.SlabObjects
import Microkernel.Lib.LinkedList

/-! # The slab lists

What the headers of the slabs hold and how the slabs hang on the two lists of their cache; and what
the list operations of the backend do: a new slab, a slab that became full, and one that stopped being
full.

* **`SlabState.HoldsSlab`** — one slab: the bits of its free objects, and the counter of these bits.
* **`SlabState.Lists`, `SlabState.Describes`** — all slabs of a cache by their lists, and which of them
  belong on which.
* **`Lists.relink`** — moving a slab between the lists of its cache, with what stays as it was
  (`SameSlabs`, `Relinks`). The list operations of the source are instances of it.
-/

namespace Microkernel.Heap

open Function (update)

/-- The header of slab `a` of cache `i`: the bits are those of the free objects, and the counter counts
them. -/
structure SlabState.HoldsSlab (s : SlabState) (i : ℕ) (a : U32) : Prop where
  cacheIdx : (s.header a).cacheIdx = BitVec.ofNat 32 i
  objSize : (s.header a).objSize = cacheSize i
  capacity : (s.header a).capacity = slabCapacity i
  freeCount : (s.header a).freeCount.toNat =
    Nat.count (fun k => (s.header a).freeBitmap.test k = true) (slabCapacity i).toNat
  /-- No bit is set beyond the capacity. -/
  tail : ∀ k, (slabCapacity i).toNat ≤ k → k < 128 → (s.header a).freeBitmap.test k = false

/-- The slabs of cache `i` are those of the lists `part i` and `full i`, and every page that was taken
is a slab of one cache. -/
structure SlabState.Lists (s : SlabState) (R : SlabRegion) (part full : ℕ → List U32) : Prop where
  brk_aligned : s.slabBrk.PageAligned
  start_le : R.start ≤ s.slabBrk
  objSize : ∀ i < numCaches, (s.caches i).objSize = cacheSize i
  partial_linked : ∀ i < numCaches,
    Linked (fun a => (s.header a).next) 0#32 (s.caches i).partialSlabs (part i)
  full_linked : ∀ i < numCaches,
    Linked (fun a => (s.header a).next) 0#32 (s.caches i).fullSlabs (full i)
  /-- Each slab is on one list, once. -/
  nodup : ∀ i < numCaches, (part i ++ full i).Nodup
  holds : ∀ i < numCaches, ∀ a ∈ part i ++ full i, s.HoldsSlab i a
  pages : ∀ a, (∃ i < numCaches, a ∈ part i ++ full i) ↔
    a.PageAligned ∧ R.start ≤ a ∧ a < s.slabBrk

/-- The invariant of the backend: slabs are on the second list exactly when they have no free
object. -/
structure SlabState.Describes (s : SlabState) (R : SlabRegion) (part full : ℕ → List U32) : Prop
    extends s.Lists R part full where
  partial_pos : ∀ i < numCaches, ∀ a ∈ part i, (s.header a).freeCount ≠ 0#32
  full_zero : ∀ i < numCaches, ∀ a ∈ full i, (s.header a).freeCount = 0#32

/-- Everything but the links is the same. -/
structure SlabState.SameSlabs (s s' : SlabState) : Prop where
  header : ∀ a, s'.header a = { s.header a with next := (s'.header a).next }
  slabBrk : s'.slabBrk = s.slabBrk
  objSize : ∀ i, (s'.caches i).objSize = (s.caches i).objSize

/-- Only the lists of cache `i` change, and only slabs of `l` are linked to other slabs. -/
structure SlabState.Relinks (s s' : SlabState) (i : ℕ) (l : List U32) : Prop where
  same : s.SameSlabs s'
  caches : ∀ j, j ≠ i → s'.caches j = s.caches j
  next : ∀ x, x ∉ l → (s'.header x).next = (s.header x).next

section Lists
variable {s s' t : SlabState} {R : SlabRegion} {part full : ℕ → List U32} {i j : ℕ} {a : U32}
  {l l' : List U32}

/-- Writing a header changes that one. -/
@[simp] theorem SlabState.header_modify (s : SlabState) (a x : U32) (f : SlabHeader → SlabHeader) :
    (s.modify a f).header x = if x = a then f (s.header a) else s.header x :=
  Function.update_apply ..

/-- And no cache. -/
@[simp] theorem SlabState.caches_modify (s : SlabState) (a : U32) (f : SlabHeader → SlabHeader) :
    (s.modify a f).caches = s.caches := rfl

@[simp] theorem SlabState.slabBrk_modify (s : SlabState) (a : U32) (f : SlabHeader → SlabHeader) :
    (s.modify a f).slabBrk = s.slabBrk := rfl

/-- Writing a cache changes no header. -/
@[simp] theorem SlabState.header_modifyCache (s : SlabState) (i : ℕ) (f : SlabCache → SlabCache) :
    (s.modifyCache i f).header = s.header := rfl

/-- And no other cache. -/
@[simp] theorem SlabState.caches_modifyCache (s : SlabState) (i j : ℕ) (f : SlabCache → SlabCache) :
    (s.modifyCache i f).caches j = if j = i then f (s.caches i) else s.caches j :=
  Function.update_apply ..

@[simp] theorem SlabState.slabBrk_modifyCache (s : SlabState) (i : ℕ) (f : SlabCache → SlabCache) :
    (s.modifyCache i f).slabBrk = s.slabBrk := rfl

/-- The links do not matter for what a slab holds. -/
theorem SlabState.SameSlabs.holdsSlab (h : s.SameSlabs s') (ha : s.HoldsSlab i a) :
    s'.HoldsSlab i a := by
  have heq := h.header a
  constructor
  · rw [heq]
    exact ha.cacheIdx
  · rw [heq]
    exact ha.objSize
  · rw [heq]
    exact ha.capacity
  · rw [heq]
    exact ha.freeCount
  · rw [heq]
    exact ha.tail

/-- What one edit after the other relinks. -/
theorem SlabState.Relinks.trans (h : s.Relinks t i l) (h' : t.Relinks s' i l) : s.Relinks s' i l := by
  refine ⟨⟨fun x => ?_, h'.same.slabBrk.trans h.same.slabBrk, fun j =>
    (h'.same.objSize j).trans (h.same.objSize j)⟩, fun j hj => (h'.caches j hj).trans (h.caches j hj),
    fun x hx => (h'.next x hx).trans (h.next x hx)⟩
  rw [h'.same.header x, h.same.header x]

/-- Fewer slabs linked to others are among more. -/
theorem SlabState.Relinks.mono (h : s.Relinks s' i l) (hl : l ⊆ l') : s.Relinks s' i l' :=
  ⟨h.same, h.caches, fun x hx => h.next x fun hmem => hx (hl hmem)⟩

/-- A slab is linked to another one. -/
theorem SlabState.relinks_modify (s : SlabState) (i : ℕ) (v : U32) (ha : a ∈ l) :
    s.Relinks (s.modify a fun h => { h with next := v }) i l := by
  refine ⟨⟨fun x => ?_, rfl, fun _ => rfl⟩, fun _ _ => rfl, fun x hx => ?_⟩
  · by_cases hxa : x = a <;> simp [hxa]
  · rw [SlabState.header_modify, if_neg fun hxa : x = a => hx (hxa ▸ ha)]

/-- The head of a list is set. -/
theorem SlabState.relinks_modifyCache (s : SlabState) {f : SlabCache → SlabCache} (i : ℕ)
    (l : List U32) (hf : ∀ c, (f c).objSize = c.objSize) : s.Relinks (s.modifyCache i f) i l := by
  refine ⟨⟨fun _ => rfl, rfl, fun j => ?_⟩, fun j hj => ?_, fun _ _ => rfl⟩
  · by_cases hj : j = i <;> simp [hj, hf]
  · rw [SlabState.caches_modifyCache, if_neg hj]

/-- The links after one slab was linked to another one. -/
theorem SlabState.next_modify (s : SlabState) (a v : U32) :
    (fun x => ((s.modify a fun h => { h with next := v }).header x).next) =
      update (fun x => (s.header x).next) a v := by
  funext x
  by_cases hx : x = a <;> simp [hx]

/-- The cache of a slab can be read off its header. -/
theorem SlabState.HoldsSlab.cacheIdx_toNat (h : s.HoldsSlab i a) (hi : i < numCaches) :
    (s.header a).cacheIdx.toNat = i := by
  unfold numCaches at hi
  rw [h.cacheIdx, BitVec.toNat_ofNat, Nat.mod_eq_of_lt (by omega)]

/-- A slab belongs to one cache. -/
theorem SlabState.HoldsSlab.inj (hi : s.HoldsSlab i a) (hj : s.HoldsSlab j a) (hi' : i < numCaches)
    (hj' : j < numCaches) : i = j := by
  rw [← hi.cacheIdx_toNat hi', hj.cacheIdx_toNat hj']

/-- Listed slabs are aligned pages, and not `NULL`. -/
theorem SlabState.Lists.mem_page (h : s.Lists R part full) (hi : i < numCaches)
    (ha : a ∈ part i ++ full i) : a.PageAligned ∧ R.start ≤ a ∧ a < s.slabBrk ∧ a ≠ 0#32 := by
  obtain ⟨h₁, h₂, h₃⟩ := (h.pages a).mp ⟨i, hi, ha⟩
  refine ⟨h₁, h₂, h₃, ?_⟩
  rintro rfl
  have := R.start_ne_zero
  bv_omega

/-- There are fewer slabs on the lists of a cache than a loop along one of them may take rounds. -/
theorem SlabState.Lists.length_lt (h : s.Lists R part full) (hi : i < numCaches) :
    (part i ++ full i).length < slabFuel := by
  -- different slabs have different page numbers
  have hinj : ((part i ++ full i).map fun a => a.toNat / 4096).Nodup := by
    refine List.Nodup.map_on ?_ (h.nodup i hi)
    intro x hx y hy hxy
    have hx' := (U32.pageAligned_iff x).mp (h.mem_page hi hx).1
    have hy' := (U32.pageAligned_iff y).mp (h.mem_page hi hy).1
    apply BitVec.eq_of_toNat_eq
    omega
  have hsub : ((part i ++ full i).map fun a => a.toNat / 4096) ⊆ List.range (2 ^ 20) := by
    intro n hn
    obtain ⟨x, -, rfl⟩ := List.mem_map.mp hn
    have := x.isLt
    simp only [List.mem_range]
    omega
  have hlen := (hinj.subperm hsub).length_le
  rw [List.length_map, List.length_range] at hlen
  exact Nat.lt_succ_of_le hlen

/-- **Moving slabs between the lists of a cache.** -/
theorem SlabState.Lists.relink (h : s.Lists R part full) (hi : i < numCaches) {p f : List U32}
    (hrel : s.Relinks s' i (part i ++ full i)) (hperm : (p ++ f).Perm (part i ++ full i))
    (hp : Linked (fun a => (s'.header a).next) 0#32 (s'.caches i).partialSlabs p)
    (hf : Linked (fun a => (s'.header a).next) 0#32 (s'.caches i).fullSlabs f) :
    s'.Lists R (update part i p) (update full i f) := by
  have hmem : ∀ j a, a ∈ update part i p j ++ update full i f j ↔ a ∈ part j ++ full j := by
    intro j a
    by_cases hj : j = i
    · subst hj
      rw [Function.update_self, Function.update_self]
      exact hperm.mem_iff
    · rw [Function.update_of_ne hj, Function.update_of_ne hj]
  -- the lists of the other caches have no node in common with those of cache `i`
  have hother : ∀ j < numCaches, j ≠ i → ∀ x ∈ part j ++ full j,
      (s'.header x).next = (s.header x).next := by
    intro j hj hne x hx
    refine hrel.next x fun hxi => hne ?_
    exact (h.holds j hj x hx).inj (h.holds i hi x hxi) hj hi
  constructor
  · rw [hrel.same.slabBrk]
    exact h.brk_aligned
  · rw [hrel.same.slabBrk]
    exact h.start_le
  · intro j hj
    rw [hrel.same.objSize]
    exact h.objSize j hj
  · intro j hj
    by_cases hji : j = i
    · subst hji
      rwa [Function.update_self]
    · rw [Function.update_of_ne hji, hrel.caches j hji]
      exact (h.partial_linked j hj).congr fun x hx =>
        hother j hj hji x (List.mem_append_left _ hx)
  · intro j hj
    by_cases hji : j = i
    · subst hji
      rwa [Function.update_self]
    · rw [Function.update_of_ne hji, hrel.caches j hji]
      exact (h.full_linked j hj).congr fun x hx =>
        hother j hj hji x (List.mem_append_right _ hx)
  · intro j hj
    by_cases hji : j = i
    · subst hji
      rw [Function.update_self, Function.update_self]
      exact hperm.nodup_iff.mpr (h.nodup j hj)
    · rw [Function.update_of_ne hji, Function.update_of_ne hji]
      exact h.nodup j hj
  · intro j hj x hx
    exact hrel.same.holdsSlab (h.holds j hj x ((hmem j x).mp hx))
  · intro x
    simp only [hmem, hrel.same.slabBrk]
    exact h.pages x

/-! ### The search for a link -/

/-- The search stops at the link to the slab: the head of the list, or the link of the slab in
front. -/
theorem slabFindLink_spec {l₁ l₂ : List U32} {pp : SlabLink} {n : ℕ}
    (hl : Linked (fun a => (s.header a).next) 0#32 (s.load pp) (l₁ ++ a :: l₂)) (hal : a ∉ l₁)
    (hn : l₁.length < n) :
    ∃ q, slabFindLink s a n pp = some q ∧ s.load q = a ∧
      (l₁ = [] ∧ q = pp ∨ ∃ l b, l₁ = l ++ [b] ∧ q = .next b) := by
  induction l₁ generalizing pp n with
  | nil =>
    obtain ⟨n, rfl⟩ : ∃ m, n = m + 1 := ⟨n - 1, by simp at hn; omega⟩
    have hpp : s.load pp = a := hl.1
    refine ⟨pp, ?_, hpp, .inl ⟨rfl, rfl⟩⟩
    rw [slabFindLink, if_neg fun h => h.2 hpp]
  | cons c l₁ ih =>
    obtain ⟨n, rfl⟩ : ∃ m, n = m + 1 := ⟨n - 1, by simp at hn; omega⟩
    obtain ⟨hpp, hc, hl⟩ := hl
    have hca : c ≠ a := fun h => hal (by simp [h])
    have hlink : Linked (fun a => (s.header a).next) 0#32 (s.load (.next c)) (l₁ ++ a :: l₂) := hl
    obtain ⟨q, hq, hload, hcase⟩ := ih (n := n) hlink (fun h => hal (List.mem_cons_of_mem _ h))
      (by simp at hn; omega)
    refine ⟨q, ?_, hload, .inr ?_⟩
    · rw [slabFindLink, if_pos (by rw [hpp]; exact ⟨hc, hca⟩), hpp, hq]
    · rcases hcase with ⟨rfl, rfl⟩ | ⟨l, b, rfl, rfl⟩
      · exact ⟨[], c, rfl, rfl⟩
      · exact ⟨c :: l, b, rfl, rfl⟩

/-! ### The list operations -/

/-- The slab goes to the front of the list of full slabs. -/
theorem slabMoveToFull_spec (h : s.Lists R part full) (hi : i < numCaches) (hl : part i = a :: l) :
    (slabMoveToFull i a s).Lists R (update part i l) (update full i (a :: full i)) ∧
      s.SameSlabs (slabMoveToFull i a s) := by
  have hpart := h.partial_linked i hi
  have hnd := h.nodup i hi
  rw [hl] at hpart hnd
  obtain ⟨hal, -⟩ := List.nodup_cons.mp hnd
  set s₁ := s.modifyCache i fun c => { c with partialSlabs := (s.header a).next } with hs₁
  set s₂ := s₁.modify a fun h => { h with next := (s₁.caches i).fullSlabs } with hs₂
  have hres : slabMoveToFull i a s = s₂.modifyCache i fun c => { c with fullSlabs := a } := rfl
  have hrel : s.Relinks (slabMoveToFull i a s) i (part i ++ full i) := by
    rw [hres]
    exact (s.relinks_modifyCache i _ fun _ => by rfl).trans
      ((s₁.relinks_modify i _ (by simp [hl])).trans (s₂.relinks_modifyCache i _ fun _ => by rfl))
  have hnext : (fun x => ((slabMoveToFull i a s).header x).next) =
      update (fun x => (s.header x).next) a (s.caches i).fullSlabs := by
    rw [show (s.caches i).fullSlabs = (s₁.caches i).fullSlabs by simp [hs₁]]
    exact s₁.next_modify a _
  refine ⟨h.relink hi hrel ?_ ?_ ?_, hrel.same⟩
  · rw [hl]
    exact List.perm_middle
  · have hhead : ((slabMoveToFull i a s).caches i).partialSlabs = (s.header a).next := by
      simp [hres, hs₂, hs₁]
    rw [hnext, hhead]
    refine hpart.2.2.congr fun x hx => Function.update_of_ne ?_ ..
    rintro rfl
    exact hal (by simp [hx])
  · have hhead : ((slabMoveToFull i a s).caches i).fullSlabs = a := by
      simp [hres]
    rw [hnext, hhead]
    exact (h.full_linked i hi).push hpart.2.1 fun hx => hal (by simp [hx])

/-- The link to the slab is set to the one behind it: the slab leaves the list of full slabs. -/
theorem SlabState.store_next {l₁ l₂ : List U32} {q : SlabLink}
    (hfull : Linked (fun a => (s.header a).next) 0#32 (s.caches i).fullSlabs (l₁ ++ a :: l₂))
    (hnd : (l₁ ++ a :: l₂).Nodup)
    (hcase : l₁ = [] ∧ q = .full i ∨ ∃ l b, l₁ = l ++ [b] ∧ q = .next b) :
    Linked (fun x => ((s.store (s.header a).next q).header x).next) 0#32
        ((s.store (s.header a).next q).caches i).fullSlabs (l₁ ++ l₂) ∧
      s.Relinks (s.store (s.header a).next q) i (l₁ ++ a :: l₂) ∧
      ((s.store (s.header a).next q).caches i).partialSlabs = (s.caches i).partialSlabs := by
  rcases hcase with ⟨rfl, rfl⟩ | ⟨l, b, rfl, rfl⟩
  · -- the slab is the first on the list
    have hstore : s.store (s.header a).next (.full i) =
        s.modifyCache i fun c => { c with fullSlabs := (s.header a).next } := rfl
    rw [hstore, SlabState.caches_modifyCache, if_pos rfl]
    exact ⟨hfull.2.2, s.relinks_modifyCache i _ fun _ => by rfl, rfl⟩
  · -- the slab in front of it is linked past it
    have hstore : s.store (s.header a).next (.next b) =
        s.modify b fun h => { h with next := (s.header a).next } := rfl
    rw [hstore, s.next_modify]
    refine ⟨?_, s.relinks_modify i _ (by simp), rfl⟩
    rw [List.append_assoc] at hfull hnd ⊢
    exact hfull.unlink hnd

/-- The slab leaves the list of full slabs and goes to the front of the other one. -/
theorem slabMoveToPartial_spec (h : s.Lists R part full) (hi : i < numCaches) {l₁ l₂ : List U32}
    (hl : full i = l₁ ++ a :: l₂) :
    ∃ s', slabMoveToPartial a s = some s' ∧
      s'.Lists R (update part i (a :: part i)) (update full i (l₁ ++ l₂)) ∧ s.SameSlabs s' := by
  have hfull := h.full_linked i hi
  have hnd := h.nodup i hi
  have hlen := h.length_lt hi
  rw [hl] at hfull hnd hlen
  obtain ⟨-, hndf, hdisj⟩ := List.nodup_append'.mp hnd
  have hal : a ∉ l₁ ++ l₂ := (List.nodup_cons.mp (List.perm_middle.nodup_iff.mp hndf)).1
  have hap : a ∉ part i := fun hx => hdisj hx (by simp)
  have ha : a ≠ 0#32 := hfull.ne_nil a (by simp)
  have hidx := (h.holds i hi a (by simp [hl])).cacheIdx_toNat hi
  -- the walk along the links stops at the one that points to the slab
  have hlink : Linked (fun a => (s.header a).next) 0#32 (s.load (.full i)) (l₁ ++ a :: l₂) := hfull
  obtain ⟨q, hq, hload, hcase⟩ := slabFindLink_spec hlink (fun hx => hal (List.mem_append_left _ hx))
    (show l₁.length < slabFuel by simp at hlen; omega)
  -- `*pp = slab->next`, then the slab goes in front of the other list
  obtain ⟨hfull₁, hrel₁, hhead₁⟩ := SlabState.store_next hfull hndf hcase
  set s₁ := s.store (s.header a).next q with hs₁
  set s₂ := s₁.modify a fun h => { h with next := (s₁.caches i).partialSlabs } with hs₂
  set s₃ := s₂.modifyCache i fun c => { c with partialSlabs := a } with hs₃
  have hres : slabMoveToPartial a s = some s₃ := by
    simp only [slabMoveToPartial, hidx, hq, Option.map_some, hload]
    rw [if_pos ha, hs₃, hs₂, hs₁]
  have hrel : s.Relinks s₃ i (part i ++ full i) :=
    (hrel₁.mono (hl ▸ List.subset_append_right ..)).trans
      ((s₁.relinks_modify i _ (by simp [hl])).trans (s₂.relinks_modifyCache i _ fun _ => by rfl))
  have hnext : (fun x => (s₃.header x).next) =
      update (fun x => (s₁.header x).next) a (s₁.caches i).partialSlabs := s₁.next_modify a _
  refine ⟨s₃, hres, h.relink hi hrel ?_ ?_ ?_, hrel.same⟩
  · rw [hl, List.cons_append]
    refine List.perm_middle.symm.trans (List.Perm.append_left _ ?_)
    exact List.perm_middle.symm
  · have hpart₁ : Linked (fun x => (s₁.header x).next) 0#32 (s₁.caches i).partialSlabs (part i) :=
      hhead₁ ▸ (h.partial_linked i hi).congr fun x hx => hrel₁.next x (hdisj hx)
    rw [hnext, hs₃, SlabState.caches_modifyCache, if_pos rfl]
    exact hpart₁.push ha hap
  · have hhead : (s₃.caches i).fullSlabs = (s₁.caches i).fullSlabs := by
      simp [hs₃, hs₂]
    rw [hnext, hhead]
    exact hfull₁.congr fun x hx => Function.update_of_ne (ne_of_mem_of_not_mem hx hal) ..

end Lists

end Microkernel.Heap
