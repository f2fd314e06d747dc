import Microkernel.Pmm.BitmapRun

/-! # The reserved pages of the bitmap allocator

The pages with the bitmaps, the kernel image and the Multiboot2 information are marked used, exactly as a
page that was handed out is. So nothing but the callers keeps them: `pmm_bitmap_free_page` takes one that
is named to it, and some later allocation returns it.

* **`Exposes`** — a free that names such a page.
* **`Protects`** — the invariant of the runs without one: no free page is reserved.
* **`Protects.returned`** — after one the page is returned in the end, once the pages in front of it are
  used.

The regions have bytes of their own here. `Pmm/BitmapMemoryRuns` draws the conclusion for the bitmaps in
memory.
-/

namespace Microkernel.Pmm

/-! ### Reserved pages -/

namespace BitmapPmm

/-- The page at `a` has a part of a bitmap, of the kernel image or of the Multiboot2 information in it. -/
def IsReserved (p : BitmapPmm) (kernel info : BootBlock) (a : U32) : Prop :=
  ∃ x, (a.toNat ≤ x ∧ x < a.toNat + 4096) ∧
    (kernel.Has x ∨ info.Has x ∨ ∃ r ∈ p.regions, r.Stores x)

/-- A free of `a` gives up a reserved page: the address is aligned and in a region. -/
structure Exposes (p : BitmapPmm) (kernel info : BootBlock) (a : U32) : Prop where
  aligned : a.PageAligned
  managed : ∃ r ∈ p.regions, r.containsAddr a = true
  reserved : p.IsReserved kernel info a

end BitmapPmm

/-- Every entry that is not skipped starts at the last page of the address space or below. -/
def ClipsInRange (entries : List Mb2MmapEntry) : Prop :=
  ∀ e ∈ entries, (clipEntry e).isSome → e.addr.toNat ≤ 0xFFFFF000

/-! ### Skipped entries -/

section Skipped
variable {entries : List Mb2MmapEntry} {kernel info : BootBlock}

/-- The entries that are not skipped. -/
def clippedEntries (entries : List Mb2MmapEntry) : List Mb2MmapEntry :=
  entries.filter fun e => (clipEntry e).isSome

/-- Entries without a usable range have no layout, so leaving them out changes none. -/
theorem entryLayout_filter (kernel info : BootBlock) (entries : List Mb2MmapEntry) :
    (clippedEntries entries).filterMap (entryLayout kernel info) =
      entries.filterMap (entryLayout kernel info) := by
  unfold clippedEntries
  rw [List.filterMap_filter]
  refine List.filterMap_congr fun e _ => ?_
  unfold entryLayout
  cases clipEntry e <;> rfl

/-- Skipped entries make no difference. -/
theorem pmmBitmapInit_clipped (memory : U32 → U8) (entries : List Mb2MmapEntry)
    (kernel info : BootBlock) :
    pmmBitmapInit memory (clippedEntries entries) kernel info =
      pmmBitmapInit memory entries kernel info := by
  have hregions : bitmapAddRegions memory kernel info (clippedEntries entries) pmmResetState.regions =
      bitmapAddRegions memory kernel info entries pmmResetState.regions := by
    rw [bitmapAddRegions_eq, bitmapAddRegions_eq, entryLayout_filter]
  unfold pmmBitmapInit
  simp only [hregions]

/-- The clipped entries start in range. -/
theorem ClipsInRange.clipped (h : ClipsInRange entries) : StartsInRange (clippedEntries entries) := by
  intro e he _
  obtain ⟨hmem, hclip⟩ := List.mem_filter.mp he
  exact h e hmem hclip

/-- Entries with disjoint usable ranges keep them when the others are left out. -/
theorem DisjointUsable.clipped (h : DisjointUsable entries) : DisjointUsable (clippedEntries entries) :=
  h.sublist List.filter_sublist

/-- The layouts are those of the entries with a usable range. -/
theorem bitmapLayouts_clipped (kernel info : BootBlock) (entries : List Mb2MmapEntry) :
    bitmapLayouts (clippedEntries entries) kernel info = bitmapLayouts entries kernel info := by
  unfold bitmapLayouts
  rw [entryLayout_filter]

/-- Staying off the last pages is a matter of those entries too. -/
theorem KeepsOffLastPages.clipped (h : KeepsOffLastPages entries kernel info) :
    KeepsOffLastPages (clippedEntries entries) kernel info := by
  intro pre e post hentries hlast
  obtain ⟨l₁, l₂, rfl, rfl, hl₂⟩ := List.filter_eq_append_iff.mp hentries
  obtain ⟨m, n, rfl, hm, -, rfl⟩ := List.filter_eq_cons_iff.mp hl₂
  have hle := h (l₁ ++ m) e n (by simp) hlast
  have hnil : m.filterMap (entryLayout kernel info) = [] := by
    refine List.filterMap_eq_nil_iff.mpr fun x hx => ?_
    have hnone := hm x hx
    unfold entryLayout
    cases hclip : clipEntry x with
    | none => rfl
    | some usable => simp [hclip] at hnone
  rw [List.filterMap_append, hnil, List.append_nil, ← entryLayout_filter] at hle
  exact hle

end Skipped

/-! ### The invariant -/

/-- **The invariant**: the counters are right, the regions are those of the initialised allocator `p₀`
and lie apart, and no free page is reserved. -/
structure BitmapPmm.Protects (p₀ : BitmapPmm) (kernel info : BootBlock) (p : BitmapPmm) : Prop where
  sound : p.Sound
  apart : p.Apart
  same : BitmapPmm.SamePmm p₀ p
  clear : ∀ ri i a, p.HasPage ri i a → p.bit ri i = some false → ¬ p₀.IsReserved kernel info a

section Protects
variable {p₀ p p' : BitmapPmm} {kernel info : BootBlock} {a : U32}

open BitmapPmm (Marks)

/-- Marking a page used, or marking one free that is not reserved. -/
theorem BitmapPmm.Protects.marks (h : p₀.Protects kernel info p) {used : Bool} {ri i : ℕ}
    (hmarks : Marks used p p' ri i a) (hfree : used = false → ¬ p₀.IsReserved kernel info a) :
    p₀.Protects kernel info p' := by
  refine ⟨h.sound.marks hmarks, h.apart.of_same hmarks.same, h.same.trans hmarks.same, ?_⟩
  intro rj j b hpage hbit
  have hpage' := hmarks.same.symm.hasPage hpage
  rw [hmarks.bit] at hbit
  by_cases heq : rj = ri ∧ j = i
  · rw [if_pos heq] at hbit
    obtain ⟨rfl, rfl⟩ := heq
    obtain ⟨r, hr, -, rfl⟩ := hpage'
    obtain ⟨r', hr', -, rfl⟩ := hmarks.hasPage
    rw [hr] at hr'
    obtain rfl := Option.some.inj hr'
    exact hfree (Option.some.inj hbit)
  · rw [if_neg heq] at hbit
    exact h.clear rj j b hpage' hbit

/-- Allocation keeps the invariant, and returns no reserved page. -/
theorem BitmapPmm.Protects.alloc (h : p₀.Protects kernel info p) :
    p₀.Protects kernel info (pmmBitmapAllocPage p).1 ∧
      ((pmmBitmapAllocPage p).2 ≠ 0#32 → ¬ p₀.IsReserved kernel info (pmmBitmapAllocPage p).2) := by
  rcases h.sound.alloc with ⟨heq, -⟩ | ⟨ri, i, hmarks⟩
  · rw [heq]
    exact ⟨h, fun hne => absurd rfl hne⟩
  · refine ⟨h.marks hmarks fun hused => absurd hused Bool.true_eq_false.mp, fun _ => ?_⟩
    exact h.clear ri i _ hmarks.hasPage hmarks.bit_before

/-- So does a free that gives up no reserved page. -/
theorem BitmapPmm.Protects.free (h : p₀.Protects kernel info p)
    (ha : ¬ p₀.Exposes kernel info a) : p₀.Protects kernel info (pmmBitmapFreePage a p) := by
  rcases h.sound.free a with ⟨heq, -⟩ | ⟨ri, i, howns, hmarks⟩
  · rw [heq]
    exact h
  · refine h.marks hmarks fun _ hreserved => ha ⟨?_, ?_, hreserved⟩
    · obtain ⟨r, hr, hi, rfl⟩ := hmarks.hasPage
      exact (h.sound.regions r (List.mem_of_getElem? hr)).toShape.indexToAddr_aligned hi
    · obtain ⟨pre, r, post, hregions, -, -, -, hr⟩ := h.same.symm.owns howns
      exact ⟨r, by simp [hregions], hr⟩

/-- One call. -/
theorem BitmapPmm.Protects.call (h : p₀.Protects kernel info p) (call : PmmCall)
    (hcall : ∀ a, call = .freePage a → ¬ p₀.Exposes kernel info a) :
    ∃ p' answer, bitmapCall p call = some (p', answer) ∧ p₀.Protects kernel info p' := by
  cases call with
  | allocPage => exact ⟨_, _, rfl, h.alloc.1⟩
  | freePage a => exact ⟨_, _, rfl, h.free (hcall a rfl)⟩

/-- What a run of allocations gives: a page that is free is returned in the end. -/
theorem BitmapPmm.Sound.alloc_eventually {ri i : ℕ} (hsound : p.Sound) (hapart : p.Apart)
    (hpage : p.HasPage ri i a) (hbit : p.bit ri i = some false) :
    ∃ n p' answers, (bitmapMachine p₀).runFrom p (List.replicate n .allocPage) = some (p', answers) ∧
      (pmmBitmapAllocPage p').2 = a := by
  -- every allocation leaves one free page less
  obtain ⟨n, hn⟩ : ∃ n, p.totalFree.toNat = n := ⟨_, rfl⟩
  induction n generalizing p with
  | zero =>
    have hzero : p.totalFree = 0#32 := BitVec.eq_of_toNat_eq hn
    exact absurd hzero (hsound.exists_isFree_iff.mp ⟨ri, i, ⟨a, hpage⟩, hbit⟩)
  | succ n ih =>
    rcases hsound.alloc with ⟨-, hno⟩ | ⟨rj, j, hmarks⟩
    · exact absurd ⟨⟨a, hpage⟩, hbit⟩ (hno ri i)
    · by_cases heq : ri = rj ∧ i = j
      · obtain ⟨rfl, rfl⟩ := heq
        refine ⟨0, p, [], rfl, ?_⟩
        obtain ⟨r, hr, -, haddr⟩ := hmarks.hasPage
        obtain ⟨r', hr', -, haddr'⟩ := hpage
        rw [hr] at hr'
        obtain rfl := Option.some.inj hr'
        exact haddr.symm.trans haddr'
      · have htotal : (pmmBitmapAllocPage p).1.totalFree.toNat = n := by
          rw [hmarks.totalFree, if_pos rfl]
          bv_omega
        obtain ⟨m, p', answers, hrun, hanswer⟩ := ih (hsound.marks hmarks) (hapart.of_same hmarks.same)
          (hmarks.same.hasPage hpage) (by rw [hmarks.bit, if_neg heq, hbit]) htotal
        refine ⟨m + 1, p', (pmmBitmapAllocPage p).2 :: answers, ?_, hanswer⟩
        rw [List.replicate_succ, Machine.runFrom_cons_of_step (M := bitmapMachine p₀) (i := .allocPage)
          (t := (pmmBitmapAllocPage p).1) (o := (pmmBitmapAllocPage p).2) rfl, hrun]
        rfl

/-- A free that gives up a reserved page clears its bit. -/
theorem BitmapPmm.Protects.free_exposes (h : p₀.Protects kernel info p)
    (ha : p₀.Exposes kernel info a) :
    (pmmBitmapFreePage a p).Sound ∧ (pmmBitmapFreePage a p).Apart ∧
      ∃ ri i, (pmmBitmapFreePage a p).HasPage ri i a ∧ (pmmBitmapFreePage a p).bit ri i = some false := by
  obtain ⟨haligned, ⟨r₀, hr₀, hin⟩, hreserved⟩ := ha
  -- where the page is
  obtain ⟨r, hr, hsame⟩ := BitmapPmm.forall₂_mem h.same.regions hr₀
  rw [← hsame.containsAddr] at hin
  obtain ⟨ri, hri⟩ := List.getElem?_of_mem hr
  obtain ⟨hi, haddr⟩ := (h.sound.regions r hr).toShape.addrToIndex haligned hin
  have hpage : p.HasPage ri (r.addrToIndex a) a := ⟨r, hri, hi, haddr⟩
  have hbit : p.bit ri (r.addrToIndex a) ≠ some false := fun hbit => h.clear _ _ _ hpage hbit hreserved
  rcases h.sound.free a with ⟨-, hfree⟩ | ⟨rj, j, -, hmarks⟩
  · exact absurd (hfree _ _ (h.apart.ne_zero hpage) haligned (h.apart.owns h.sound hpage)) hbit
  · refine ⟨h.sound.marks hmarks, h.apart.of_same hmarks.same, rj, j,
      hmarks.same.hasPage hmarks.hasPage, ?_⟩
    rw [hmarks.bit, if_pos ⟨rfl, rfl⟩]

end Protects

/-! ### Every run -/

/-- The initialised allocator protects the reserved pages. -/
theorem pmmBitmapInit_protects (memory : U32 → U8) {entries : List Mb2MmapEntry}
    (hdisjoint : DisjointUsable entries) (hrange : ClipsInRange entries) {kernel info : BootBlock}
    (hkeeps : KeepsOffLastPages entries kernel info) :
    ∃ p, pmmBitmapInit memory entries kernel info = some p ∧ p.Protects kernel info p := by
  obtain ⟨p, hinit, hsound, hplaced, -⟩ :=
    pmmBitmapInit_regions memory (clippedEntries entries) kernel info
  obtain ⟨p', hinit', hsafe⟩ := hkeeps.clipped.safe hdisjoint.clipped hrange.clipped memory
  obtain rfl := Option.some.inj (hinit'.symm.trans hinit)
  rw [pmmBitmapInit_clipped] at hinit
  refine ⟨p', hinit, hsound, hkeeps.clipped.apart hdisjoint.clipped hrange.clipped hplaced, .refl p', ?_⟩
  rintro ri i a ⟨r, hr, hi, rfl⟩ hbit ⟨x, hx, hreserved⟩
  rw [BitmapPmm.bit, hr, Option.map_some, Option.some_inj] at hbit
  obtain ⟨hkernel, hinfo, hstored⟩ := hsafe.free r (List.mem_of_getElem? hr) i hi hbit x hx
  rcases hreserved with hk | hi | ⟨r', hr', hs⟩
  exacts [hkernel hk, hinfo hi, hstored r' hr' hs]

/-- **Run lemma.** In a run whose frees give up no reserved page the invariant is kept. -/
theorem BitmapPmm.Protects.run {p : BitmapPmm} {kernel info : BootBlock} (h : p.Protects kernel info p)
    {calls : List PmmCall} (hcalls : ∀ a, .freePage a ∈ calls → ¬ p.Exposes kernel info a) :
    ∃ p' answers, (bitmapMachine p).run calls = some (p', answers) ∧ p.Protects kernel info p' :=
  Machine.runFrom_trace_of (M := bitmapMachine p) (τ := Unit)
    (R := fun p' _ => p.Protects kernel info p')
    (C := fun call => ∀ a, call = .freePage a → ¬ p.Exposes kernel info a) (fun _ _ => ())
    (fun _ _ _ hcall h => h.call _ hcall) calls
    (fun _ hmem a heq => hcalls a (heq ▸ hmem)) p () h

/-- **A reserved page that is given up is returned in the end.** -/
theorem BitmapPmm.Protects.returned {p₀ p : BitmapPmm} {kernel info : BootBlock} {a : U32}
    (h : p₀.Protects kernel info p) (ha : p₀.Exposes kernel info a) :
    ∃ n p' answers, (bitmapMachine p₀).runFrom p (.freePage a :: .replicate n .allocPage) =
        some (p', answers) ∧
      (pmmBitmapAllocPage p').2 = a := by
  obtain ⟨hsound, hapart, ri, i, hpage, hbit⟩ := h.free_exposes ha
  obtain ⟨n, p', answers, hrun, hanswer⟩ : ∃ n p' answers,
      (bitmapMachine p₀).runFrom (pmmBitmapFreePage a p) (List.replicate n .allocPage) =
          some (p', answers) ∧
        (pmmBitmapAllocPage p').2 = a := hsound.alloc_eventually hapart hpage hbit
  refine ⟨n, p', 0#32 :: answers, ?_, hanswer⟩
  rw [Machine.runFrom_cons_of_step (M := bitmapMachine p₀) (i := .freePage a)
    (t := pmmBitmapFreePage a p) (o := 0#32) rfl, hrun]
  rfl

end Microkernel.Pmm
