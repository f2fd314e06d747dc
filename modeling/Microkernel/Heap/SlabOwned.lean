import Microkernel.Heap.SlabRun
import Mathlib.Algebra.Group.Action.Defs
import Mathlib.Algebra.Order.BigOperators.Group.List
import Mathlib.Algebra.Order.Ring.Nat
import Mathlib.Data.List.Count

/-! # What the callers of the slab heap asked for

The live allocations with the sizes that were asked for. Each is an object of the cache that
`find_cache` finds for its size; so the live allocations of a cache are counted by the slabs of that
cache.

* **`SlabClient.Owns`** — that invariant. `find_cache` is asked again when a pointer is given back, and
  then it must name the cache that the object came from.
* **`SlabClient.Grows`** — a call makes a slab only when the allocations of its cache fill those that
  there are.
* **`slabCall_owns`** — one call keeps it.
-/

namespace Microkernel.Heap

/-- The live allocations after a call, with the sizes that were asked for. -/
def slabOwned (owned : List (U32 × U32)) : SlabCall × U32 → List (U32 × U32)
  | (.alloc size _ _, p) => if p = 0#32 then owned else (p, size) :: owned
  | (.free ptr, _) => owned.filter fun e => e.1 ≠ ptr

/-- The allocations that `find_cache` sends to cache `i`. -/
def ofCache (i : ℕ) (owned : List (U32 × U32)) : List (U32 × U32) :=
  owned.filter fun e => findCache e.2 = some i

/-- The pointers to the used slots of slab `a` of cache `i`. -/
def SlabState.usedObjects (s : SlabState) (i : ℕ) (a : U32) : List U32 :=
  ((List.range (slabCapacity i).toNat).filter fun k => !(s.header a).freeBitmap.test k).map
    (objectAddr i a)

/-- The pointers to the used slots of the slabs of cache `i`. -/
def SlabState.objects (s : SlabState) (part full : ℕ → List U32) (i : ℕ) : List U32 :=
  (part i ++ full i).flatMap (s.usedObjects i)

/-! ### The objects of a cache -/

section Objects
variable {s : SlabState} {R : SlabRegion} {part full : ℕ → List U32} {i : ℕ} {a p : U32}

/-- The objects in use of one slab, by their slots. -/
theorem SlabState.mem_usedObjects : p ∈ s.usedObjects i a ↔
    ∃ k < (slabCapacity i).toNat, (s.header a).freeBitmap.test k = false ∧ p = objectAddr i a k := by
  unfold SlabState.usedObjects
  simp only [List.mem_map, List.mem_filter, List.mem_range, Bool.not_eq_true', and_assoc]
  constructor
  · rintro ⟨k, hk, hbit, rfl⟩
    exact ⟨k, hk, hbit, rfl⟩
  · rintro ⟨k, hk, hbit, rfl⟩
    exact ⟨k, hk, hbit, rfl⟩

/-- The objects in use of one cache. -/
theorem SlabState.mem_objects : p ∈ s.objects part full i ↔ s.Uses part full i p := by
  unfold SlabState.objects SlabState.Uses
  simp only [List.mem_flatMap, SlabState.mem_usedObjects]

/-- No object of a slab is counted twice. -/
theorem SlabState.Lists.nodup_usedObjects (h : s.Lists R part full) (hi : i < numCaches)
    (ha : a ∈ part i ++ full i) : (s.usedObjects i a).Nodup := by
  refine List.Nodup.map_on ?_ (List.nodup_range.filter _)
  intro k hk l hl heq
  rw [List.mem_filter, List.mem_range] at hk hl
  exact (h.object_inj hi ha hk.1 hi ha hl.1 heq).2.2

/-- No object is listed twice. -/
theorem SlabState.Lists.nodup_objects (h : s.Lists R part full) (hi : i < numCaches) :
    (s.objects part full i).Nodup := by
  refine List.nodup_flatMap.mpr ⟨fun a ha => h.nodup_usedObjects hi ha, ?_⟩
  refine (h.nodup i hi).pairwise_of_forall_ne fun a ha b hb hab q hqa hqb => ?_
  obtain ⟨k, hk, -, rfl⟩ := SlabState.mem_usedObjects.mp hqa
  obtain ⟨l, hl, -, heq⟩ := SlabState.mem_usedObjects.mp hqb
  exact hab (h.object_inj hi ha hk hi hb hl heq).2.1

/-- The used slots of a slab are those that its counter does not count. -/
theorem SlabState.HoldsSlab.length_usedObjects (h : s.HoldsSlab i a) :
    (s.usedObjects i a).length + (s.header a).freeCount.toNat = (slabCapacity i).toNat := by
  have hsplit := List.length_eq_countP_add_countP (fun k => (s.header a).freeBitmap.test k)
    (l := List.range (slabCapacity i).toNat)
  rw [List.length_range, Nat.add_comm] at hsplit
  unfold SlabState.usedObjects
  rw [List.length_map, ← List.countP_eq_length_filter, h.freeCount, Nat.count]
  simpa using hsplit.symm

/-- The slabs of a cache hold no more objects than fit. -/
theorem SlabState.Lists.length_objects_le (h : s.Lists R part full) (hi : i < numCaches) :
    (s.objects part full i).length ≤ (part i ++ full i).length * (slabCapacity i).toNat := by
  have hsum := List.sum_le_card_nsmul ((part i ++ full i).map fun a => (s.usedObjects i a).length)
    (slabCapacity i).toNat (fun n hn => by
      obtain ⟨a, ha, rfl⟩ := List.mem_map.mp hn
      exact Nat.le.intro (h.holds i hi a ha).length_usedObjects)
  rw [SlabState.objects, List.length_flatMap]
  simpa only [List.length_map, smul_eq_mul] using hsum

/-- When no slab of a cache has a free object, its objects are all that fit. -/
theorem SlabState.Describes.length_objects (h : s.Describes R part full) (hi : i < numCaches)
    (hpart : part i = []) :
    (s.objects part full i).length = (part i ++ full i).length * (slabCapacity i).toNat := by
  have hfull : (part i ++ full i).map (fun a => (s.usedObjects i a).length) =
      List.replicate (part i ++ full i).length (slabCapacity i).toNat := by
    refine List.eq_replicate_iff.mpr ⟨List.length_map .., fun n hn => ?_⟩
    obtain ⟨a, ha, rfl⟩ := List.mem_map.mp hn
    have hcount := (h.holds i hi a ha).length_usedObjects
    rw [hpart, List.nil_append] at ha
    rw [h.full_zero i hi a ha] at hcount
    exact hcount
  rw [SlabState.objects, List.length_flatMap, hfull, List.sum_replicate, smul_eq_mul]

end Objects

/-! ### Allocations and objects -/

/-- **The invariant**: the callers hold the pointers of their allocations, and each allocation is an
object of the cache that is found for its size. -/
structure SlabClient.Owns (c : SlabClient) (R : SlabRegion) (part full : ℕ → List U32)
    (owned : List (U32 × U32)) : Prop where
  describes : c.Describes R part full
  live : (owned.map Prod.fst).Perm c.live
  cache : ∀ e ∈ owned, ∃ i < numCaches, findCache e.2 = some i ∧ c.heap.Uses part full i e.1

section Owns
variable {c : SlabClient} {R : SlabRegion} {part full : ℕ → List U32} {owned : List (U32 × U32)} {i : ℕ}

/-- The pointers of the allocations are distinct. -/
theorem SlabClient.Owns.pointers_nodup (h : c.Owns R part full owned) :
    (owned.map Prod.fst).Nodup := h.live.nodup_iff.mpr h.describes.nodup

/-- **The allocations of a cache are the used slots of its slabs.** -/
theorem SlabClient.Owns.perm_objects (h : c.Owns R part full owned) (hi : i < numCaches) :
    ((ofCache i owned).map Prod.fst).Perm (c.heap.objects part full i) := by
  have hsub : (ofCache i owned).Sublist owned := List.filter_sublist
  refine (List.perm_ext_iff_of_nodup (h.pointers_nodup.sublist (hsub.map _))
    (h.describes.heap.nodup_objects hi)).mpr fun p => ?_
  rw [SlabState.mem_objects, List.mem_map]
  constructor
  · rintro ⟨e, he, rfl⟩
    obtain ⟨hmem, hfind⟩ := List.mem_filter.mp he
    obtain ⟨j, -, hfind', huses⟩ := h.cache e hmem
    obtain rfl : j = i := Option.some.inj (hfind'.symm.trans (of_decide_eq_true hfind))
    exact huses
  · intro huses
    have hlive := (h.describes.live p).mpr (SlabState.allocated_iff.mpr ⟨i, hi, huses⟩)
    obtain ⟨e, he, rfl⟩ := List.mem_map.mp (h.live.mem_iff.mpr hlive)
    obtain ⟨j, hj, hfind, huses'⟩ := h.cache e he
    obtain rfl := h.describes.heap.uses_inj hj hi huses' huses
    exact ⟨e, List.mem_filter.mpr ⟨he, decide_eq_true hfind⟩, rfl⟩

/-- The callers own as many allocations of a class as its cache has objects in use. -/
theorem SlabClient.Owns.length_ofCache (h : c.Owns R part full owned) (hi : i < numCaches) :
    (ofCache i owned).length = (c.heap.objects part full i).length := by
  rw [← (h.perm_objects hi).length_eq, List.length_map]

/-- What a call does to the slabs and the allocations of a cache: a new slab is made only when the
allocations fill the slabs that there are, and for one more of them. -/
structure SlabClient.Grows (c : SlabClient) (part full part' full' : ℕ → List U32)
    (owned owned' : List (U32 × U32)) (call : SlabCall) (i : ℕ) : Prop where
  slabs : (part' i ++ full' i).length =
    (part i ++ full i).length + if slabCreates c.heap call = some i then 1 else 0
  full : slabCreates c.heap call = some i →
    (ofCache i owned).length = (part i ++ full i).length * (slabCapacity i).toNat
  one_more : slabCreates c.heap call = some i →
    (ofCache i owned').length = (ofCache i owned).length + 1

/-- A call that makes no slab keeps the slabs of each cache. -/
theorem SlabClient.grows_of_none {part' full' : ℕ → List U32} {owned' : List (U32 × U32)}
    {call : SlabCall} (hcall : slabCreates c.heap call = none)
    (hslabs : (part' i ++ full' i).length = (part i ++ full i).length) :
    c.Grows part full part' full' owned owned' call i := by
  have hnone : slabCreates c.heap call ≠ some i := by
    rw [hcall]
    exact Option.some_ne_none i |>.symm
  exact ⟨by rw [hslabs, if_neg hnone, Nat.add_zero], fun h => absurd h hnone, fun h => absurd h hnone⟩

/-- **One call** keeps the invariant. -/
theorem slabCall_owns (h : c.Owns R part full owned) (call : SlabCall) :
    ∃ c' answer, slabCall c call = some (c', answer) ∧ ∃ part' full',
      c'.Owns R part' full' (slabOwned owned (call, answer)) ∧
      ∀ i < numCaches, c.Grows part full part' full' owned (slabOwned owned (call, answer)) call i := by
  cases call with
  | alloc size phys mapOk =>
    rcases heapSlabAlloc_cases h.describes size phys mapOk with
      ⟨hres, hnone⟩ | ⟨i, hi, hfind, s', p, part', full', hres, htakes⟩
    · refine ⟨c, 0#32, by simp only [slabCall, hres, if_true], part, full, ?_, fun i _ => ?_⟩
      · simpa only [slabOwned, if_true] using h
      · exact SlabClient.grows_of_none hnone rfl
    · have howned : slabOwned owned (.alloc size phys mapOk, p) = (p, size) :: owned :=
        if_neg htakes.ne_null
      refine ⟨⟨s', p :: c.live⟩, p, by simp only [slabCall, hres, if_neg htakes.ne_null], part', full',
        ?_, fun j hj => ?_⟩
      · rw [howned]
        refine ⟨htakes.describes, h.live.cons p, fun e he => ?_⟩
        rcases List.mem_cons.mp he with rfl | he
        · exact ⟨i, hi, hfind, (htakes.uses i hi _).mpr (.inl ⟨rfl, rfl⟩)⟩
        · obtain ⟨j, hj, hfind', huses⟩ := h.cache e he
          exact ⟨j, hj, hfind', (htakes.uses j hj _).mpr (.inr huses)⟩
      · refine ⟨htakes.slabs j hj, fun hnew => ?_, fun hnew => ?_⟩
        · obtain ⟨-, hnil⟩ := htakes.empty j hnew
          rw [h.length_ofCache hj, h.describes.heap.length_objects hj hnil]
        · obtain ⟨rfl, -⟩ := htakes.empty j hnew
          rw [howned, ofCache, List.filter_cons_of_pos (by simpa using hfind), List.length_cons]
          rfl
  | free p =>
    by_cases hp : c.live.contains p
    · obtain ⟨s', part', full', hres, hreturns⟩ := h.describes.returns (List.contains_iff_mem.mp hp)
      refine ⟨⟨s', c.live.erase p⟩, 0#32, by simp only [slabCall, if_pos hp, hres, Option.map_some],
        part', full', ⟨hreturns.describes, ?_, fun e he => ?_⟩, fun j hj => ?_⟩
      · have hfilter : (owned.filter fun e => e.1 ≠ p).map Prod.fst = (owned.map Prod.fst).erase p := by
          rw [h.pointers_nodup.erase_eq_filter, List.filter_map]
          congr 2
          funext e
          simp [bne, Bool.beq_eq_decide_eq]
        rw [slabOwned, hfilter]
        exact h.live.erase p
      · obtain ⟨hmem, hne⟩ := List.mem_filter.mp he
        obtain ⟨j, hj, hfind, huses⟩ := h.cache e hmem
        exact ⟨j, hj, hfind, (hreturns.uses j hj _).mpr ⟨by simpa using hne, huses⟩⟩
      · exact SlabClient.grows_of_none rfl (hreturns.slabs j hj)
    · have hkeep : slabOwned owned (.free p, 0#32) = owned := by
        refine List.filter_eq_self.mpr fun e he => ?_
        have hmem := h.live.subset (List.mem_map_of_mem he)
        simp only [ne_eq, decide_eq_true_eq]
        rintro rfl
        exact hp (List.contains_iff_mem.mpr hmem)
      refine ⟨c, 0#32, by simp only [slabCall, if_neg hp], part, full, ?_, fun i _ => ?_⟩
      · rwa [hkeep]
      · exact SlabClient.grows_of_none rfl rfl

/-- An initialised heap has no allocations. -/
theorem heapSlabInit_owns (R : SlabRegion) (s₀ : SlabState) :
    (SlabClient.mk (heapSlabInit s₀ R.start R.size) []).Owns R (fun _ => []) (fun _ => []) [] :=
  ⟨heapSlabInit_describes R s₀, by simp, by simp⟩

end Owns

end Microkernel.Heap
