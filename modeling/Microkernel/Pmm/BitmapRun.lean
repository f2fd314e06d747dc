import Microkernel.Lib.Machine
import Microkernel.Pmm.BitmapSafety

/-! # Runs of the bitmap allocator

The initialised allocator as a machine whose callers free whatever address they like. In every run the
counters agree with the bits, and an address that was returned and not freed since is not returned
again.

* **`Serves`** — the invariant: the counters are right, the regions lie apart, and live pages are used.
* **`Serves.call`, `Serves.run`** — the step and the run.

The regions have bytes of their own here, so that one bitmap never writes another one.
`Pmm/BitmapMemoryRuns` carries the result over to the bitmaps in memory, and says when it fails there.
-/

namespace Microkernel.Pmm

/-- One call and its answer; `pmm_bitmap_free_page` answers nothing. -/
def bitmapCall (p : BitmapPmm) : PmmCall → Option (BitmapPmm × U32)
  | .allocPage => some (pmmBitmapAllocPage p)
  | .freePage page => some (pmmBitmapFreePage page p, 0#32)

/-- The allocator as a machine. -/
def bitmapMachine (p : BitmapPmm) : Machine BitmapPmm PmmCall U32 := ⟨p, bitmapCall⟩

/-- The pages that were returned and not freed since, after one more call and its answer. -/
def bitmapLive (live : List U32) : PmmCall × U32 → List U32
  | (.allocPage, page) => if page = 0#32 then live else page :: live
  | (.freePage page, _) => live.filter (· ≠ page)

/-- **What holds after every run**, when the pages `live` were returned and not freed since. -/
structure BitmapPmm.Correct (p : BitmapPmm) (live : List U32) : Prop where
  /-- The counter of a region is the number of its zero bits. -/
  regionFree : ∀ r ∈ p.regions, r.free.toNat = Nat.count (fun i => r.bitmapTest i = false) r.pages.toNat
  /-- The total counter is the sum. -/
  totalFree : p.totalFree.toNat = (p.regions.map (·.free.toNat)).sum
  /-- The bits past the last page are ones. -/
  tail : ∀ r ∈ p.regions, ∀ i, r.pages.toNat ≤ i → i < 8 * r.bitmapBytes.toNat → r.bitmapTest i = true
  /-- Allocation fails exactly when no managed bit is zero. -/
  alloc_null : (pmmBitmapAllocPage p).2 = 0#32 ↔
    ∀ r ∈ p.regions, ∀ i < r.pages.toNat, r.bitmapTest i = true
  /-- Otherwise it returns a managed page that is not in use, and changes the bit of this page alone. -/
  alloc_page : (pmmBitmapAllocPage p).2 ≠ 0#32 →
    (pmmBitmapAllocPage p).2.PageAligned ∧
    (∃ r ∈ p.regions, r.containsAddr (pmmBitmapAllocPage p).2 = true) ∧
    (pmmBitmapAllocPage p).2 ∉ live ∧
    ∃ ri i, p.HasPage ri i (pmmBitmapAllocPage p).2 ∧ p.bit ri i = some false ∧
      ∀ rj j, (pmmBitmapAllocPage p).1.bit rj j =
        if rj = ri ∧ j = i then some true else p.bit rj j
  /-- A free of an unaligned, unmanaged or free page changes nothing. -/
  free_same : ∀ a : U32, ¬ a.PageAligned ∨ (∀ r ∈ p.regions, r.containsAddr a = false) ∨
    (∃ ri i, p.HasPage ri i a ∧ p.bit ri i = some false) → pmmBitmapFreePage a p = p

/-! ### The invariant -/

/-- The counters are right, the regions lie apart, and the bits of the live pages are ones. -/
structure BitmapPmm.Serves (p : BitmapPmm) (live : List U32) : Prop where
  sound : p.Sound
  apart : p.Apart
  live : ∀ a ∈ live, ∃ ri i, p.HasPage ri i a ∧ p.bit ri i = some true

namespace BitmapPmm

variable {p p' : BitmapPmm} {live : List U32}

/-- No page is free when every bit of every region is set. -/
theorem forall_not_isFree_iff (p : BitmapPmm) :
    (∀ ri i, ¬ p.IsFree ri i) ↔ ∀ r ∈ p.regions, ∀ i < r.pages.toNat, r.bitmapTest i = true := by
  simp only [isFree_iff]
  constructor
  · intro hno r hr i hi
    obtain ⟨ri, hri⟩ := List.getElem?_of_mem hr
    by_contra hbit
    exact hno ri i ⟨r, hri, hi, by simpa using hbit⟩
  · rintro hall ri i ⟨r, hr, hi, hbit⟩
    rw [hall r (List.mem_of_getElem? hr) i hi] at hbit
    cases hbit

/-- A page as found by its address. -/
theorem Serves.containsAddr (h : p.Serves live) {ri i : ℕ} {a : U32} (hpage : p.HasPage ri i a) :
    a.PageAligned ∧ ∃ r ∈ p.regions, r.containsAddr a = true := by
  obtain ⟨r, hr, hi, rfl⟩ := hpage
  have hmem := List.mem_of_getElem? hr
  have hshape := (h.sound.regions r hmem).toShape
  exact ⟨hshape.indexToAddr_aligned hi, r, hmem,
    hshape.containsAddr_indexToAddr (h.apart.fits r hmem) hi⟩

/-- A free page is not live. -/
theorem Serves.not_mem_live (h : p.Serves live) {ri i : ℕ} {a : U32} (hpage : p.HasPage ri i a)
    (hbit : p.bit ri i = some false) : a ∉ live := by
  intro ha
  obtain ⟨rj, j, hpage', hbit'⟩ := h.live a ha
  obtain ⟨rfl, rfl⟩ := h.apart.distinct _ _ _ _ a hpage hpage'
  rw [hbit] at hbit'
  cases hbit'

/-- The invariant says all that is promised. -/
theorem Serves.correct (h : p.Serves live) : p.Correct live := by
  refine ⟨fun r hr => (h.sound.regions r hr).free, h.sound.totalFree,
    fun r hr => (h.sound.regions r hr).tail, ?_, fun hne => ?_, fun a ha => ?_⟩
  · rw [← p.forall_not_isFree_iff]
    rcases h.sound.alloc with ⟨heq, hno⟩ | ⟨ri, i, hmarks⟩
    · rw [heq]
      exact ⟨fun _ => hno, fun _ => rfl⟩
    · refine ⟨fun hnull => absurd hnull (h.apart.ne_zero hmarks.hasPage), fun hno => ?_⟩
      exact absurd ⟨⟨_, hmarks.hasPage⟩, hmarks.bit_before⟩ (hno ri i)
  · rcases h.sound.alloc with ⟨heq, -⟩ | ⟨ri, i, hmarks⟩
    · rw [heq] at hne
      exact absurd rfl hne
    · obtain ⟨haligned, hcontains⟩ := h.containsAddr hmarks.hasPage
      exact ⟨haligned, hcontains, h.not_mem_live hmarks.hasPage hmarks.bit_before, ri, i,
        hmarks.hasPage, hmarks.bit_before, hmarks.bit⟩
  · rcases h.sound.free a with ⟨heq, -⟩ | ⟨ri, i, howns, hmarks⟩
    · exact heq
    · -- the page that is freed is aligned, managed and used
      obtain ⟨haligned, hcontains⟩ := h.containsAddr hmarks.hasPage
      rcases ha with ha | ha | ⟨rj, j, hpage, hbit⟩
      · exact absurd haligned ha
      · obtain ⟨r, hr, hin⟩ := hcontains
        rw [ha r hr] at hin
        cases hin
      · obtain ⟨rfl, rfl⟩ := h.apart.distinct _ _ _ _ a hpage hmarks.hasPage
        rw [hmarks.bit_before] at hbit
        cases hbit

/-- Marking one page, with the new list of live pages. -/
theorem Serves.marks (h : p.Serves live) {used : Bool} {ri i : ℕ} {a : U32}
    (hmarks : Marks used p p' ri i a) {live' : List U32}
    (hlive : ∀ b ∈ live', b = a ∧ used = true ∨ b ∈ live ∧ b ≠ a) : p'.Serves live' := by
  refine ⟨h.sound.marks hmarks, h.apart.of_same hmarks.same, fun b hb => ?_⟩
  rcases hlive b hb with ⟨rfl, rfl⟩ | ⟨hb, hne⟩
  · refine ⟨ri, i, hmarks.same.hasPage hmarks.hasPage, ?_⟩
    rw [hmarks.bit, if_pos ⟨rfl, rfl⟩]
  · obtain ⟨rj, j, hpage, hbit⟩ := h.live b hb
    refine ⟨rj, j, hmarks.same.hasPage hpage, ?_⟩
    rw [hmarks.bit, if_neg, hbit]
    -- another address is another page
    rintro ⟨rfl, rfl⟩
    obtain ⟨r, hr, -, rfl⟩ := hpage
    obtain ⟨r', hr', -, haddr⟩ := hmarks.hasPage
    rw [hr] at hr'
    obtain rfl := Option.some.inj hr'
    exact hne haddr

/-- **Step lemma.** Every call returns and keeps the invariant. -/
theorem Serves.call (h : p.Serves live) (call : PmmCall) :
    ∃ p' answer, bitmapCall p call = some (p', answer) ∧ p'.Serves (bitmapLive live (call, answer)) := by
  cases call with
  | allocPage =>
    refine ⟨(pmmBitmapAllocPage p).1, (pmmBitmapAllocPage p).2, rfl, ?_⟩
    rcases h.sound.alloc with ⟨heq, -⟩ | ⟨ri, i, hmarks⟩
    · rw [heq]
      exact h
    · have hne := h.apart.ne_zero hmarks.hasPage
      have hnew := h.not_mem_live hmarks.hasPage hmarks.bit_before
      show (pmmBitmapAllocPage p).1.Serves (if (pmmBitmapAllocPage p).2 = 0#32 then live
        else (pmmBitmapAllocPage p).2 :: live)
      rw [if_neg hne]
      refine h.marks hmarks fun b hb => ?_
      rcases List.mem_cons.mp hb with rfl | hb
      · exact .inl ⟨rfl, rfl⟩
      · exact .inr ⟨hb, fun heq => hnew (heq ▸ hb)⟩
  | freePage page =>
    refine ⟨pmmBitmapFreePage page p, 0#32, rfl, ?_⟩
    have hmem : ∀ b, b ∈ live.filter (· ≠ page) → b ∈ live ∧ b ≠ page := fun b hb => by
      simpa using hb
    show (pmmBitmapFreePage page p).Serves (live.filter (· ≠ page))
    rcases h.sound.free page with ⟨heq, -⟩ | ⟨ri, i, -, hmarks⟩
    · rw [heq]
      exact ⟨h.sound, h.apart, fun b hb => h.live b (hmem b hb).1⟩
    · exact h.marks hmarks fun b hb => .inr (hmem b hb)

/-- **Run lemma.** -/
theorem Serves.run (h : p.Serves []) (calls : List PmmCall) :
    ∃ p' answers, (bitmapMachine p).run calls = some (p', answers) ∧
      p'.Serves ((calls.zip answers).foldl bitmapLive []) :=
  Machine.runFrom_trace (M := bitmapMachine p) bitmapLive (R := fun p live => p.Serves live)
    (fun _ _ call hp => hp.call call) calls p [] h

end BitmapPmm

/-- The initialised allocator serves, whenever no entry in the last pages of the address space gets a
region. -/
theorem KeepsOffLastPages.serves {entries : List Mb2MmapEntry} {kernel info : BootBlock}
    (hkeeps : KeepsOffLastPages entries kernel info) (hdisjoint : DisjointUsable entries)
    (hrange : StartsInRange entries) (memory : U32 → U8) :
    ∃ p, pmmBitmapInit memory entries kernel info = some p ∧ p.Serves [] := by
  obtain ⟨p, hinit, hsound, hplaced, -⟩ := pmmBitmapInit_regions memory entries kernel info
  exact ⟨p, hinit, hsound, hkeeps.apart hdisjoint hrange hplaced, fun a ha => absurd ha List.not_mem_nil⟩

end Microkernel.Pmm
