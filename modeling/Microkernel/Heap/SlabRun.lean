import Microkernel.Heap.SlabInvariant

/-! # Runs of the slab heap

The objects that the callers hold are the used slots of the slabs; where they lie; and the theorem
about every run from `heap_slab_init`, whatever the requests for pages meet.

* **`SlabClient.Describes`** — the invariant of heap and callers.
* **`SlabClient.Takes`, `SlabClient.Returns`** — all that a call can do to the used slots. A request for a
  page may fail at any point, and then nothing has changed.
* **`slab_run`** — the theorem: lists, bitmaps and counters agree, objects are aligned, large enough and
  disjoint, in every run.
-/

namespace Microkernel.Heap

/-- The pointers to the used slots of the slabs of cache `i`. -/
def SlabState.Uses (s : SlabState) (part full : ℕ → List U32) (i : ℕ) (p : U32) : Prop :=
  ∃ a ∈ part i ++ full i, ∃ k < (slabCapacity i).toNat,
    (s.header a).freeBitmap.test k = false ∧ p = objectAddr i a k

/-- The pointers to the used slots of the slabs. -/
def SlabState.Allocated (s : SlabState) (part full : ℕ → List U32) (p : U32) : Prop :=
  ∃ i < numCaches, ∃ a ∈ part i ++ full i, ∃ k < (slabCapacity i).toNat,
    (s.header a).freeBitmap.test k = false ∧ p = objectAddr i a k

/-- **The invariant of the slab heap**: the slabs are in order, and the callers hold exactly the used
slots. -/
structure SlabClient.Describes (c : SlabClient) (R : SlabRegion) (part full : ℕ → List U32) :
    Prop where
  heap : c.heap.Describes R part full
  nodup : c.live.Nodup
  live : ∀ p, p ∈ c.live ↔ c.heap.Allocated part full p

/-- The class size of the object at a pointer, from the header of its page. -/
def SlabState.extent (s : SlabState) (p : U32) : ℕ :=
  (s.header (p &&& ~~~ (vmmPageSize - 1#32))).objSize.toNat

/-- **Where an object lies**: aligned, behind the header of its slab and inside the page, and apart from
every other object and from every header. -/
structure SlabClient.Places (c : SlabClient) (part full : ℕ → List U32) (p : U32) : Prop where
  aligned : 8 ∣ p.toNat
  inside : ∃ i < numCaches, ∃ a ∈ part i ++ full i, c.heap.extent p = (cacheSize i).toNat ∧
    a.toNat + slabHdrSize.toNat ≤ p.toNat ∧ p.toNat + c.heap.extent p ≤ a.toNat + vmmPageSize.toNat
  objects : ∀ q ∈ c.live, q ≠ p →
    p.toNat + c.heap.extent p ≤ q.toNat ∨ q.toNat + c.heap.extent q ≤ p.toNat
  headers : ∀ i < numCaches, ∀ a ∈ part i ++ full i,
    a.toNat + slabHdrSize.toNat ≤ p.toNat ∨ p.toNat + c.heap.extent p ≤ a.toNat

section Objects
variable {s s' : SlabState} {R : SlabRegion} {part full part' full' : ℕ → List U32} {i j k l : ℕ}
  {a b : U32}

/-- A pointer determines the slab and the slot. -/
theorem SlabState.Lists.object_inj (h : s.Lists R part full) (hi : i < numCaches)
    (ha : a ∈ part i ++ full i) (hk : k < (slabCapacity i).toNat) (hj : j < numCaches)
    (hb : b ∈ part j ++ full j) (hl : l < (slabCapacity j).toNat)
    (heq : objectAddr i a k = objectAddr j b l) : i = j ∧ a = b ∧ k = l := by
  have hpa := (h.mem_page hi ha).1
  have hpb := (h.mem_page hj hb).1
  have hab : a = b := by rw [← objectAddr_page hi hpa hk, heq, objectAddr_page hj hpb hl]
  subst hab
  obtain rfl := (h.holds i hi a ha).inj (h.holds j hj a hb) hi hj
  refine ⟨rfl, rfl, ?_⟩
  rw [← objectAddr_slot hi hpa hk, heq, objectAddr_slot hi hpa hl]

/-- A pointer is in use when some cache uses it. -/
theorem SlabState.allocated_iff {p : U32} :
    s.Allocated part full p ↔ ∃ i < numCaches, s.Uses part full i p := Iff.rfl

/-- A pointer belongs to one cache. -/
theorem SlabState.Lists.uses_inj (h : s.Lists R part full) (hi : i < numCaches) (hj : j < numCaches)
    {p : U32} (hp : s.Uses part full i p) (hq : s.Uses part full j p) : i = j := by
  obtain ⟨a, ha, k, hk, -, rfl⟩ := hp
  obtain ⟨b, hb, l, hl, -, heq⟩ := hq
  exact (h.object_inj hi ha hk hj hb hl heq).1

/-- Taking an object adds its pointer to those of its cache. -/
theorem SlabState.SetsBit.uses_take (hs : s.SetsBit s' R part full part' full' a k false)
    (hi : i < numCaches) (ha : a ∈ part i ++ full i) (hk : k < (slabCapacity i).toNat)
    (h : s.Lists R part full) (hj : j < numCaches) (q : U32) :
    s'.Uses part' full' j q ↔ j = i ∧ q = objectAddr i a k ∨ s.Uses part full j q := by
  constructor
  · rintro ⟨b, hb, l, hl, hbit, rfl⟩
    rw [hs.mem_iff] at hb
    by_cases hba : b = a
    · subst hba
      obtain rfl := (h.holds i hi b ha).inj (h.holds j hj b hb) hi hj
      rw [hs.bit] at hbit
      by_cases hlk : l = k
      · exact .inl ⟨rfl, by rw [hlk]⟩
      · rw [if_neg hlk] at hbit
        exact .inr ⟨b, hb, l, hl, hbit, rfl⟩
    · rw [hs.same b hba] at hbit
      exact .inr ⟨b, hb, l, hl, hbit, rfl⟩
  · rintro (⟨rfl, rfl⟩ | ⟨b, hb, l, hl, hbit, rfl⟩)
    · exact ⟨a, (hs.mem_iff j a).mpr ha, k, hk, by rw [hs.bit, if_pos rfl], rfl⟩
    · refine ⟨b, (hs.mem_iff j b).mpr hb, l, hl, ?_, rfl⟩
      by_cases hba : b = a
      · subst hba
        rw [hs.bit, hbit]
        exact ite_self _
      · rw [hs.same b hba, hbit]

/-- Returning an object takes its pointer from those of its cache. -/
theorem SlabState.SetsBit.uses_return (hs : s.SetsBit s' R part full part' full' a k true)
    (hi : i < numCaches) (ha : a ∈ part i ++ full i) (hk : k < (slabCapacity i).toNat)
    (h : s.Lists R part full) (hj : j < numCaches) (q : U32) :
    s'.Uses part' full' j q ↔ q ≠ objectAddr i a k ∧ s.Uses part full j q := by
  constructor
  · rintro ⟨b, hb, l, hl, hbit, rfl⟩
    rw [hs.mem_iff] at hb
    have hold : (s.header b).freeBitmap.test l = false ∧ (b = a → l ≠ k) := by
      by_cases hba : b = a
      · subst hba
        rw [hs.bit] at hbit
        by_cases hlk : l = k
        · rw [if_pos hlk] at hbit
          exact absurd hbit (by decide)
        · rw [if_neg hlk] at hbit
          exact ⟨hbit, fun _ => hlk⟩
      · rw [hs.same b hba] at hbit
        exact ⟨hbit, fun hab => absurd hab hba⟩
    refine ⟨fun heq => ?_, b, hb, l, hl, hold.1, rfl⟩
    obtain ⟨-, hba, hlk⟩ := h.object_inj hj hb hl hi ha hk heq
    exact hold.2 hba hlk
  · rintro ⟨hne, b, hb, l, hl, hbit, rfl⟩
    refine ⟨b, (hs.mem_iff j b).mpr hb, l, hl, ?_, rfl⟩
    by_cases hba : b = a
    · subst hba
      obtain rfl := (h.holds i hi b ha).inj (h.holds j hj b hb) hi hj
      have hlk : l ≠ k := fun hlk => hne (by rw [hlk])
      rw [hs.bit, if_neg hlk, hbit]
    · rw [hs.same b hba, hbit]

/-- Taking or returning an object leaves each cache its slabs. -/
theorem SlabState.SetsBit.length_eq {v : Bool} (hs : s.SetsBit s' R part full part' full' a k v)
    (h : s.Lists R part full) (hj : j < numCaches) :
    (part' j ++ full' j).length = (part j ++ full j).length :=
  ((List.perm_ext_iff_of_nodup (hs.describes.nodup j hj) (h.nodup j hj)).mpr
    (hs.mem_iff j)).length_eq

/-- The class size that a pointer's page tells. -/
theorem SlabState.Lists.extent_eq (h : s.Lists R part full) (hi : i < numCaches)
    (ha : a ∈ part i ++ full i) (hk : k < (slabCapacity i).toNat) :
    s.extent (objectAddr i a k) = (cacheSize i).toNat := by
  unfold SlabState.extent
  rw [objectAddr_page hi (h.mem_page hi ha).1 hk, (h.holds i hi a ha).objSize]

/-- An object in use is as large as the objects of its cache. -/
theorem SlabState.Lists.extent_of_uses (h : s.Lists R part full) (hi : i < numCaches) {p : U32}
    (hp : s.Uses part full i p) : s.extent p = (cacheSize i).toNat := by
  obtain ⟨a, ha, k, hk, -, rfl⟩ := hp
  exact h.extent_eq hi ha hk

/-- The cache that is found is large enough. -/
theorem findCache_spec {size : U32} (h : findCache size = some i) :
    i < numCaches ∧ size ≤ cacheSize i := by
  obtain ⟨hlt, hle, -⟩ := List.findIdx?_eq_some_iff_getElem.mp h
  refine ⟨hlt, ?_⟩
  unfold cacheSize
  rw [List.getD_eq_getElem _ _ hlt]
  simpa using hle

end Objects

section Run
variable {c : SlabClient} {R : SlabRegion} {part full : ℕ → List U32} {p : U32}

/-- Every object that is held lies where it should. -/
theorem SlabClient.Describes.places (h : c.Describes R part full) (hp : p ∈ c.live) :
    c.Places part full p := by
  obtain ⟨i, hi, a, ha, k, hk, -, rfl⟩ := (h.live p).mp hp
  obtain ⟨hpage, -⟩ := h.heap.mem_page hi ha
  have haddr := objectAddr_toNat hi hpage hk
  have hend := object_end_le hi hk
  have hext := h.heap.extent_eq hi ha hk
  have hpage' := (U32.pageAligned_iff a).mp hpage
  have h40 : slabHdrSize.toNat = 40 := rfl
  have h4096 : vmmPageSize.toNat = 4096 := rfl
  constructor
  · exact (objectAddr_aligned hi hpage hk).1
  · exact ⟨i, hi, a, ha, hext, by omega, by omega⟩
  · intro q hq hne
    obtain ⟨j, hj, b, hb, l, hl, -, rfl⟩ := (h.live q).mp hq
    obtain ⟨hpageb, -⟩ := h.heap.mem_page hj hb
    have haddrb := objectAddr_toNat hj hpageb hl
    have hendb := object_end_le hj hl
    have hpageb' := (U32.pageAligned_iff b).mp hpageb
    rw [hext, h.heap.extent_eq hj hb hl]
    by_cases hab : a = b
    · -- in one slab the slots differ
      subst hab
      obtain rfl := (h.heap.holds i hi a ha).inj (h.heap.holds j hj a hb) hi hj
      have hkl : k ≠ l := fun hkl => hne (by rw [hkl])
      rcases Nat.lt_or_gt_of_ne hkl with hlt | hgt
      · have := objects_disjoint (i := i) hlt
        omega
      · have := objects_disjoint (i := i) hgt
        omega
    · -- different pages do not meet
      have hab' : a.toNat ≠ b.toNat := fun heq => hab (BitVec.eq_of_toNat_eq heq)
      omega
  · intro j hj b hb
    have hpageb' := (U32.pageAligned_iff b).mp (h.heap.mem_page hj hb).1
    by_cases hab : a.toNat = b.toNat
    · omega
    · omega

/-- The cache that a call makes a new slab for. -/
def slabCreates (s : SlabState) : SlabCall → Option ℕ
  | .alloc size phys mapOk =>
      match findCache size with
      | none => none
      | some ci =>
          if size ≠ 0#32 ∧ (s.caches ci).partialSlabs = 0#32 ∧
              (slabCreate ci phys mapOk s).2 ≠ 0#32 then some ci
          else none
  | .free _ => none

/-- **What an allocation that succeeds does**: it hands out an object of cache `i` that was not in use,
from a new slab when `new` names the cache. -/
structure SlabClient.Takes (c : SlabClient) (s' : SlabState) (R : SlabRegion)
    (part full part' full' : ℕ → List U32) (i : ℕ) (new : Option ℕ) (p : U32) : Prop where
  ne_null : p ≠ 0#32
  fresh : p ∉ c.live
  describes : (SlabClient.mk s' (p :: c.live)).Describes R part' full'
  uses : ∀ j < numCaches, ∀ q,
    s'.Uses part' full' j q ↔ j = i ∧ q = p ∨ c.heap.Uses part full j q
  slabs : ∀ j < numCaches, (part' j ++ full' j).length =
    (part j ++ full j).length + if new = some j then 1 else 0
  /-- A new slab is made for the object, and only when the others are full. -/
  empty : ∀ j ∈ new, j = i ∧ part j = []

/-- A new slab is not in use. -/
theorem SlabState.uses_newSlab {s s' : SlabState} {i : ℕ} {a : U32} (hi : i < numCaches)
    (hnil : part i = []) (hnew : ∀ j < numCaches, a ∉ part j ++ full j)
    (hout : ∀ x, x ≠ a → s'.header x = s.header x)
    (hfree : ∀ k < (slabCapacity i).toNat, (s'.header a).freeBitmap.test k = true) {j : ℕ}
    (hj : j < numCaches) (q : U32) :
    s'.Uses (Function.update part i [a]) full j q ↔ s.Uses part full j q := by
  have hmem : ∀ b, b ∈ Function.update part i [a] j ++ full j ↔
      j = i ∧ b = a ∨ b ∈ part j ++ full j := by
    intro b
    by_cases hji : j = i
    · subst hji
      simp [hnil]
    · simp [hji]
  constructor
  · rintro ⟨b, hb, m, hm, hbit, rfl⟩
    rcases (hmem b).mp hb with ⟨rfl, rfl⟩ | hb
    · rw [hfree m hm] at hbit
      exact absurd hbit (by decide)
    · have hba : b ≠ a := ne_of_mem_of_not_mem hb (hnew j hj)
      rw [hout b hba] at hbit
      exact ⟨b, hb, m, hm, hbit, rfl⟩
  · rintro ⟨b, hb, m, hm, hbit, rfl⟩
    have hba : b ≠ a := ne_of_mem_of_not_mem hb (hnew j hj)
    exact ⟨b, (hmem b).mpr (.inr hb), m, hm, by rw [hout b hba]; exact hbit, rfl⟩

/-- The first slab of a list serves an allocation, in a state with the same objects in use. -/
theorem SlabClient.Describes.take (h : c.Describes R part full) (new : Option ℕ) {s : SlabState}
    {part₁ full₁ : ℕ → List U32} {i : ℕ} {a : U32} {l : List U32} (hi : i < numCaches)
    (hs : s.Describes R part₁ full₁) (hl : part₁ i = a :: l)
    (huses : ∀ j < numCaches, ∀ q, s.Uses part₁ full₁ j q ↔ c.heap.Uses part full j q)
    (hslabs : ∀ j < numCaches, (part₁ j ++ full₁ j).length =
      (part j ++ full j).length + if new = some j then 1 else 0)
    (hempty : ∀ j ∈ new, j = i ∧ part j = []) :
    ∃ s' p part' full', slabTakeObject i s = (s', p) ∧
      c.Takes s' R part full part' full' i new p := by
  obtain ⟨s', part', full', k, hres, hk, hbit, hset⟩ := slabTakeObject_spec hs hi hl
  have ha : a ∈ part₁ i ++ full₁ i := by simp [hl]
  have hpage := (hs.mem_page hi ha).1
  have hnew : objectAddr i a k ∉ c.live := by
    intro hp
    obtain ⟨j, hj, hold⟩ := SlabState.allocated_iff.mp ((h.live _).mp hp)
    obtain ⟨b, hb, m, hm, hbit', heq⟩ := (huses j hj _).mpr hold
    obtain ⟨rfl, rfl, rfl⟩ := hs.object_inj hi ha hk hj hb hm heq
    rw [hbit] at hbit'
    exact absurd hbit' (by decide)
  have huses' : ∀ j < numCaches, ∀ q, s'.Uses part' full' j q ↔
      j = i ∧ q = objectAddr i a k ∨ c.heap.Uses part full j q := by
    intro j hj q
    rw [hset.uses_take hi ha hk hs.toLists hj, huses j hj]
  refine ⟨s', objectAddr i a k, part', full', hres, (objectAddr_aligned hi hpage hk).2, hnew,
    ⟨hset.describes, List.nodup_cons.mpr ⟨hnew, h.nodup⟩, fun q => ?_⟩, huses', ?_, hempty⟩
  · rw [List.mem_cons, h.live, SlabState.allocated_iff, SlabState.allocated_iff]
    constructor
    · rintro (rfl | ⟨j, hj, hq⟩)
      · exact ⟨i, hi, (huses' i hi _).mpr (.inl ⟨rfl, rfl⟩)⟩
      · exact ⟨j, hj, (huses' j hj q).mpr (.inr hq)⟩
    · rintro ⟨j, hj, hq⟩
      rcases (huses' j hj q).mp hq with ⟨-, rfl⟩ | hq
      exacts [.inl rfl, .inr ⟨j, hj, hq⟩]
  · intro j hj
    rw [hset.length_eq hs.toLists hj, hslabs j hj]

/-- **`heap_slab_alloc`** fails and changes nothing, or takes an object of the cache for the size. -/
theorem heapSlabAlloc_cases (h : c.Describes R part full) (size phys : U32) (mapOk : Bool) :
    heapSlabAlloc size phys mapOk c.heap = (c.heap, 0#32) ∧
      slabCreates c.heap (.alloc size phys mapOk) = none ∨
    ∃ i < numCaches, findCache size = some i ∧ ∃ s' p part' full',
      heapSlabAlloc size phys mapOk c.heap = (s', p) ∧
      c.Takes s' R part full part' full' i (slabCreates c.heap (.alloc size phys mapOk)) p := by
  cases hfind : findCache size with
  | none =>
    left
    simp only [heapSlabAlloc, slabCreates, hfind]
    exact ⟨ite_self _, trivial⟩
  | some i =>
    obtain ⟨hi, -⟩ := findCache_spec hfind
    by_cases hsize : size = 0#32
    · left
      constructor
      · rw [heapSlabAlloc, if_pos hsize]
      · simp only [slabCreates, hfind]
        exact if_neg fun hmake => hmake.1 hsize
    by_cases hpart : (c.heap.caches i).partialSlabs = 0#32
    · -- the cache needs a new slab
      have hnil := ((h.heap.partial_linked i hi).eq_nil_iff).mp hpart
      rcases slabCreate_spec h.heap hi hnil phys mapOk with
        hcreate | ⟨s₁, a, hcreate, ha, hdesc, hnew, hout, hfree⟩
      · left
        simp only [heapSlabAlloc, slabCreates, if_neg hsize, hfind, if_pos hpart, hcreate, if_true]
        simp
      · right
        have hcreates : slabCreates c.heap (.alloc size phys mapOk) = some i := by
          simp only [slabCreates, hfind, hcreate]
          exact if_pos ⟨hsize, hpart, ha⟩
        have hslabs : ∀ j < numCaches, (Function.update part i [a] j ++ full j).length =
            (part j ++ full j).length + if some i = some j then 1 else 0 := by
          intro j _
          by_cases hji : j = i
          · subst hji
            simp [hnil]
          · rw [Function.update_of_ne hji, if_neg fun heq => hji (Option.some.inj heq).symm,
              Nat.add_zero]
        obtain ⟨s', p, part', full', hres, htakes⟩ :=
          h.take (some i) hi hdesc (Function.update_self ..)
            (fun j hj q => SlabState.uses_newSlab hi hnil hnew (fun x hx => hout x hx) hfree hj q)
            hslabs fun j hj => by
              obtain rfl : i = j := by simpa using hj
              exact ⟨rfl, hnil⟩
        refine ⟨i, hi, rfl, s', p, part', full', ?_, hcreates ▸ htakes⟩
        simp only [heapSlabAlloc, if_neg hsize, hfind, if_pos hpart, hcreate, if_neg ha]
        exact hres
    · right
      have hcreates : slabCreates c.heap (.alloc size phys mapOk) = none := by
        simp only [slabCreates, hfind]
        exact if_neg fun hmake => hpart hmake.2.1
      obtain ⟨l, hl, -⟩ := (h.heap.partial_linked i hi).exists_cons hpart
      obtain ⟨s', p, part', full', hres, htakes⟩ :=
        h.take none hi h.heap hl (fun _ _ _ => Iff.rfl) (fun j _ => by simp)
          (fun j hj => by simp at hj)
      refine ⟨i, hi, rfl, s', p, part', full', ?_, hcreates ▸ htakes⟩
      simp only [heapSlabAlloc, if_neg hsize, hfind, if_neg hpart]
      exact hres

/-- `heap_slab_alloc` fails and changes nothing, or takes an object that was not in use. -/
theorem heapSlabAlloc_spec (h : c.Describes R part full) (size phys : U32) (mapOk : Bool) :
    heapSlabAlloc size phys mapOk c.heap = (c.heap, 0#32) ∨
    ∃ s' p part' full', heapSlabAlloc size phys mapOk c.heap = (s', p) ∧ p ≠ 0#32 ∧ p ∉ c.live ∧
      (SlabClient.mk s' (p :: c.live)).Describes R part' full' ∧ size.toNat ≤ s'.extent p := by
  rcases heapSlabAlloc_cases h size phys mapOk with
    ⟨hres, -⟩ | ⟨i, hi, hfind, s', p, part', full', hres, htakes⟩
  · exact .inl hres
  · refine .inr ⟨s', p, part', full', hres, htakes.ne_null, htakes.fresh, htakes.describes, ?_⟩
    rw [htakes.describes.heap.extent_of_uses hi ((htakes.uses i hi p).mpr (.inl ⟨rfl, rfl⟩))]
    exact (findCache_spec hfind).2

/-- **What a free does**: it gives the slot of the pointer back. -/
structure SlabClient.Returns (c : SlabClient) (s' : SlabState) (R : SlabRegion)
    (part full part' full' : ℕ → List U32) (p : U32) : Prop where
  describes : (SlabClient.mk s' (c.live.erase p)).Describes R part' full'
  uses : ∀ j < numCaches, ∀ q, s'.Uses part' full' j q ↔ q ≠ p ∧ c.heap.Uses part full j q
  slabs : ∀ j < numCaches, (part' j ++ full' j).length = (part j ++ full j).length

/-- **`heap_slab_free`** of a pointer that a caller holds returns and gives the slot back. -/
theorem SlabClient.Describes.returns (h : c.Describes R part full) (hp : p ∈ c.live) :
    ∃ s' part' full', heapSlabFree p c.heap = some s' ∧ c.Returns s' R part full part' full' p := by
  obtain ⟨i, hi, a, ha, k, hk, hbit, rfl⟩ := (h.live p).mp hp
  obtain ⟨s', part', full', hres, hset⟩ := heapSlabFree_spec h.heap hi ha hk hbit
  have huses : ∀ j < numCaches, ∀ q, s'.Uses part' full' j q ↔
      q ≠ objectAddr i a k ∧ c.heap.Uses part full j q := fun j hj q =>
    hset.uses_return hi ha hk h.heap.toLists hj q
  refine ⟨s', part', full', hres, ⟨hset.describes, h.nodup.erase _, fun q => ?_⟩, huses,
    fun j hj => hset.length_eq h.heap.toLists hj⟩
  rw [h.nodup.mem_erase_iff, h.live, SlabState.allocated_iff, SlabState.allocated_iff]
  constructor
  · rintro ⟨hne, j, hj, hq⟩
    exact ⟨j, hj, (huses j hj q).mpr ⟨hne, hq⟩⟩
  · rintro ⟨j, hj, hq⟩
    obtain ⟨hne, hq⟩ := (huses j hj q).mp hq
    exact ⟨hne, j, hj, hq⟩

/-- **A free** of a live pointer keeps the invariant and takes that pointer away. -/
theorem SlabClient.Describes.free (h : c.Describes R part full) (hp : p ∈ c.live) :
    ∃ s' part' full', heapSlabFree p c.heap = some s' ∧
      (SlabClient.mk s' (c.live.erase p)).Describes R part' full' := by
  obtain ⟨s', part', full', hres, hreturns⟩ := h.returns hp
  exact ⟨s', part', full', hres, hreturns.describes⟩

/-- What the two operations do in a state: an allocation that fails changes nothing; one that succeeds
adds an object that is large enough and lies apart from the others; a free of a pointer that a caller
holds returns. -/
structure SlabClient.Served (c : SlabClient) (R : SlabRegion) : Prop where
  alloc : ∀ size phys mapOk,
    heapSlabAlloc size phys mapOk c.heap = (c.heap, 0#32) ∨
    ∃ s' p part' full', heapSlabAlloc size phys mapOk c.heap = (s', p) ∧ p ≠ 0#32 ∧ p ∉ c.live ∧
      (SlabClient.mk s' (p :: c.live)).Describes R part' full' ∧ size.toNat ≤ s'.extent p ∧
      (SlabClient.mk s' (p :: c.live)).Places part' full' p
  free : ∀ p ∈ c.live, ∃ s' part' full', heapSlabFree p c.heap = some s' ∧
    (SlabClient.mk s' (c.live.erase p)).Describes R part' full'

/-- The invariant serves the callers. -/
theorem SlabClient.Describes.served (h : c.Describes R part full) : c.Served R := by
  constructor
  · intro size phys mapOk
    rcases heapSlabAlloc_spec h size phys mapOk with
      hres | ⟨s', p, part', full', hres, hp, hnew, hdesc, hsize⟩
    · exact .inl hres
    · exact .inr ⟨s', p, part', full', hres, hp, hnew, hdesc, hsize, hdesc.places (by simp)⟩
  · exact fun p hp => h.free hp

/-- An initialised heap has no slabs. -/
theorem heapSlabInit_describes (R : SlabRegion) (s₀ : SlabState) :
    (SlabClient.mk (heapSlabInit s₀ R.start R.size) []).Describes R (fun _ => []) fun _ => [] := by
  have hcaches : ∀ i < numCaches, (heapSlabInit s₀ R.start R.size).caches i =
      ⟨cacheSize i, 0#32, 0#32⟩ := fun i hi => if_pos hi
  refine ⟨⟨⟨R.start_aligned, BitVec.le_refl _, ?_, ?_, ?_, ?_, ?_, ?_⟩, ?_, ?_⟩, List.nodup_nil, ?_⟩
  · intro i hi
    rw [hcaches i hi]
  · intro i hi
    rw [hcaches i hi]
    rfl
  · intro i hi
    rw [hcaches i hi]
    rfl
  · simp
  · simp
  · intro a
    -- no page lies between the start and the start
    have hnone : ¬ (R.start ≤ a ∧ a < R.start) := fun ⟨h₁, h₂⟩ =>
      absurd h₁ (BitVec.not_le.mpr h₂)
    constructor
    · rintro ⟨i, -, h⟩
      simp at h
    · rintro ⟨-, h⟩
      exact absurd h hnone
  · simp
  · simp
  · intro p
    simp [SlabState.Allocated]

/-- One call keeps the invariant. -/
theorem slabCall_describes (h : c.Describes R part full) (call : SlabCall) :
    ∃ c' answer, slabCall c call = some (c', answer) ∧
      ∃ part' full', c'.Describes R part' full' := by
  cases call with
  | alloc size phys mapOk =>
    rcases heapSlabAlloc_spec h size phys mapOk with
      hres | ⟨s', p, part', full', hres, hp, -, hdesc, -⟩
    · simp only [slabCall, hres]
      exact ⟨_, _, rfl, part, full, h⟩
    · simp only [slabCall, hres, if_neg hp]
      exact ⟨_, _, rfl, part', full', hdesc⟩
  | free p =>
    by_cases hp : c.live.contains p
    · obtain ⟨s', part', full', hres, hdesc⟩ := h.free (List.contains_iff_mem.mp hp)
      simp only [slabCall, if_pos hp, hres]
      exact ⟨_, _, rfl, part', full', hdesc⟩
    · simp only [slabCall, if_neg hp]
      exact ⟨_, _, rfl, part, full, h⟩

/-- **Every run of the slab heap returns and keeps the slabs in order**, whatever the requests for
pages meet: each slab is on one list of its cache, bitmap, counter and list membership agree, the
callers hold exactly the used slots, which lie apart from each other and from every header, and an
allocation that fails changes nothing. -/
theorem slab_run (R : SlabRegion) (s₀ : SlabState) (calls : List SlabCall) :
    ∃ c answers, (slabMachine R s₀).run calls = some (c, answers) ∧
      ∃ part full, c.Describes R part full ∧ (∀ p ∈ c.live, c.Places part full p) ∧ c.Served R := by
  obtain ⟨c, answers, hrun, part, full, h⟩ := Machine.run_invariant (M := slabMachine R s₀)
    (I := fun c => ∃ part full, c.Describes R part full) ⟨_, _, heapSlabInit_describes R s₀⟩
    (fun _ call ⟨_, _, h⟩ => slabCall_describes h call) calls
  exact ⟨c, answers, hrun, part, full, h, fun p hp => h.places hp, h.served⟩

end Run

end Microkernel.Heap
