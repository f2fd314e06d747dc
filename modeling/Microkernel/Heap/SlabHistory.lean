import Microkernel.Heap.SlabOwned
import Mathlib.Algebra.Order.Floor.Div

/-! # How many slabs the slab heap makes

A record beside the heap: the live allocations, how many slabs were ever made for each cache, and the
largest number of allocations of each cache that were live at one time. A freed slot makes its slab
findable again, and a full slab hides no free slot; so the heap makes a new slab only when every slot of
the cache is taken, and never has more slabs than the fullest moment needed.

* **`SlabHistory`** — the heap with this record, which no function of the heap looks at.
* **`SlabHistory.Counts`** — what the record of a cache says of its slabs: they have room for the peak,
  and one slab less would not have.
* **`slab_created_eq_peak`** — in every run without a failed request for a page, the slabs ever made are
  the peak divided by the objects of a slab, rounded up.
-/

namespace Microkernel.Heap

/-- The heap with the record of its history. -/
structure SlabHistory where
  /-- The heap and the pointers its callers hold. -/
  client : SlabClient
  /-- The live allocations, with the sizes that were asked for. -/
  owned : List (U32 × U32)
  /-- How many slabs were ever made for each cache. -/
  created : ℕ → ℕ
  /-- The largest number of allocations of each cache that were live at one time. -/
  peak : ℕ → ℕ

/-- One call with its record. -/
def slabRecord (h : SlabHistory) (call : SlabCall) : Option (SlabHistory × U32) :=
  (slabCall h.client call).map fun r =>
    let owned := slabOwned h.owned (call, r.2)
    ({ client := r.1
       owned := owned
       created := fun i => h.created i + if slabCreates h.client.heap call = some i then 1 else 0
       peak := fun i => max (h.peak i) (ofCache i owned).length }, r.2)

/-- The slab heap over a region with the record of its history. -/
def slabHistoryMachine (R : SlabRegion) (s₀ : SlabState) : Machine SlabHistory SlabCall U32 :=
  ⟨⟨⟨heapSlabInit s₀ R.start R.size, []⟩, [], fun _ => 0, fun _ => 0⟩, slabRecord⟩

/-- **The record of a cache**: the slabs that were made are those that there are; they have room for the
peak, and one slab fewer would not. -/
structure SlabHistory.Counts (h : SlabHistory) (part full : ℕ → List U32) (i : ℕ) : Prop where
  created : h.created i = (part i ++ full i).length
  live_le : (ofCache i h.owned).length ≤ h.peak i
  peak_le : h.peak i ≤ h.created i * (slabCapacity i).toNat
  lt_peak : h.created i ≠ 0 → (h.created i - 1) * (slabCapacity i).toNat < h.peak i

/-- The record belongs to the heap. -/
structure SlabHistory.Records (h : SlabHistory) (R : SlabRegion) (part full : ℕ → List U32) : Prop where
  owns : h.client.Owns R part full h.owned
  counts : ∀ i < numCaches, h.Counts part full i

section History
variable {h : SlabHistory} {R : SlabRegion} {part full : ℕ → List U32} {i : ℕ}

/-- The slabs that were made are what the peak needs. -/
theorem SlabHistory.Counts.created_eq (hc : h.Counts part full i) (hi : i < numCaches) :
    h.created i = h.peak i ⌈/⌉ (slabCapacity i).toNat := by
  obtain ⟨-, -, hcap, -⟩ := slabCapacity_spec i hi
  apply le_antisymm
  · by_contra hlt
    rw [not_le] at hlt
    have hne : h.created i ≠ 0 := by omega
    have hle : h.peak i ⌈/⌉ (slabCapacity i).toNat ≤ h.created i - 1 := by omega
    rw [ceilDiv_le_iff_le_mul hcap] at hle
    have := hc.lt_peak hne
    rw [Nat.mul_comm] at this
    omega
  · rw [ceilDiv_le_iff_le_mul hcap, Nat.mul_comm]
    exact hc.peak_le

/-- **One call** keeps the record. -/
theorem slabRecord_records (h' : h.Records R part full) (call : SlabCall) :
    ∃ t answer, slabRecord h call = some (t, answer) ∧ slabCall h.client call = some (t.client, answer) ∧
      ∃ part' full', t.Records R part' full' := by
  obtain ⟨c', answer, hres, part', full', howns, hgrows⟩ := slabCall_owns h'.owns call
  refine ⟨_, answer, by rw [slabRecord, hres]; rfl, hres, part', full', howns, fun i hi => ?_⟩
  have hc := h'.counts i hi
  have hg := hgrows i hi
  have hcreated := hc.created
  have hpeak := hc.peak_le
  have hlt := hc.lt_peak
  have hlive : (ofCache i (slabOwned h.owned (call, answer))).length ≤
      (part' i ++ full' i).length * (slabCapacity i).toNat := by
    rw [howns.length_ofCache hi]
    exact howns.describes.heap.length_objects_le hi
  have hslabs := hg.slabs
  by_cases hnew : slabCreates h.client.heap call = some i
  · -- the slabs were full, so the new allocation is one more than ever before
    have hfull := hg.full hnew
    have hmore := hg.one_more hnew
    rw [if_pos hnew] at hslabs
    rw [hslabs, Nat.succ_mul] at hlive
    refine ⟨?_, le_max_right .., max_le ?_ ?_, fun _ => ?_⟩
    · simp only [if_pos hnew]
      omega
    · simp only [if_pos hnew, Nat.succ_mul]
      omega
    · simp only [if_pos hnew, Nat.succ_mul]
      rwa [hcreated]
    · simp only [if_pos hnew, Nat.add_sub_cancel]
      rw [hcreated]
      exact lt_max_of_lt_right (by omega)
  · rw [if_neg hnew, Nat.add_zero] at hslabs
    refine ⟨?_, le_max_right .., max_le ?_ ?_, fun hne => ?_⟩
    · simp only [if_neg hnew, Nat.add_zero]
      omega
    · simpa only [if_neg hnew, Nat.add_zero] using hpeak
    · simp only [if_neg hnew, Nat.add_zero]
      rwa [hcreated, ← hslabs]
    · simp only [if_neg hnew, Nat.add_zero] at hne ⊢
      exact lt_max_of_lt_left (hlt hne)

/-- **Slabs are used again before new ones are made.** In every run of the slab heap, the number of slabs
that were ever made for a cache is the largest number of its allocations that were live at one time,
divided by the objects in a slab and rounded up. -/
theorem slab_created_eq_peak (R : SlabRegion) (s₀ : SlabState) (calls : List SlabCall) :
    ∃ h answers, (slabHistoryMachine R s₀).run calls = some (h, answers) ∧
      (slabMachine R s₀).run calls = some (h.client, answers) ∧
      ∀ i < numCaches, h.created i = h.peak i ⌈/⌉ (slabCapacity i).toNat := by
  obtain ⟨h, c, answers, hrun, hrun', ⟨rfl, part, full, hrec⟩⟩ :=
    Machine.runFrom_simulation (M := slabHistoryMachine R s₀) (N := slabMachine R s₀)
      (R := fun h c => h.client = c ∧ ∃ part full, h.Records R part full)
      (fun h c call ⟨hc, _, _, hrec⟩ => by
        subst hc
        obtain ⟨t, answer, ht, ht', hrec'⟩ := slabRecord_records hrec call
        exact ⟨t, t.client, answer, ht, ht', rfl, hrec'⟩)
      calls (slabHistoryMachine R s₀).init (slabMachine R s₀).init
      ⟨rfl, fun _ => [], fun _ => [], heapSlabInit_owns R s₀, fun i _ =>
        ⟨rfl, le_rfl, by simp [slabHistoryMachine], fun hne => absurd rfl hne⟩⟩
  exact ⟨h, answers, hrun, hrun', fun i hi => (hrec.counts i hi).created_eq hi⟩

end History

end Microkernel.Heap
