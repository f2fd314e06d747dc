import Microkernel.Pmm.BitmapRun
import Microkernel.Pmm.BuddyLayout
import Microkernel.Vmm.AllocPages

/-! # The two backends of the physical allocator

`kernel/mm/pmm.c` hands every call to the registered backend. Each backend, once initialised, is a
physical allocator as the virtual memory manager relies on it: it gives frames that are not in use, and
only frames of its regions.

* **`BuddyPages`** — the buddy allocator with the pages that are held, since nothing in its descriptors
  tells such a page from the inside of a free block.
* **`PmmState`, `PmmZone`** — the statics of the registered backend, and what `pmm_init` fixed of it.
* **`PmmState.InZone`** — the invariant of either, kept by `PmmState.InZone.alloc` and
  `PmmState.InZone.free`.
* **`pmmBackend`** — the structure that the virtual memory manager takes as its parameter.
-/

namespace Microkernel.Kernel

open Pmm Vmm

/-! ### Dispatch -/

/-- The buddy allocator with the pages that its callers hold. They free only these: a page inside a free
block is not tagged, so `pmm_buddy_free_page` would not notice. -/
structure BuddyPages where
  /-- The statics. -/
  state : BuddyState
  /-- The pages that were returned and not freed since. -/
  live : List U32

/-- The statics of the registered backend. -/
inductive PmmState where
  | bitmap (p : BitmapPmm)
  | buddy (c : BuddyPages)

/-- `pmm_buddy_total_pages()`. -/
def pmmBuddyTotalPages (s : BuddyState) : U32 := if s.ready then s.totalPages else 0#32

/-- `pmm_buddy_managed_base()`. -/
def pmmBuddyManagedBase (s : BuddyState) : U32 := if s.ready then s.basePhys else 0#32

/-- `pmm_alloc_page()`; `none` when the free lists are broken. -/
def pmmAllocPage : PmmState → Option (U32 × PmmState)
  | .bitmap p => some ((pmmBitmapAllocPage p).2, .bitmap (pmmBitmapAllocPage p).1)
  | .buddy c => (pmmBuddyAllocPage c.state).map fun r =>
      (r.2, .buddy ⟨r.1, if r.2 = 0#32 then c.live else r.2 :: c.live⟩)

/-- `pmm_free_page(page)`. -/
def pmmFreePage (page : U32) : PmmState → PmmState
  | .bitmap p => .bitmap (pmmBitmapFreePage page p)
  | .buddy c =>
      if c.live.contains page then .buddy ⟨pmmBuddyFreePage page c.state, c.live.erase page⟩
      else .buddy c

/-- `pmm_total_pages()`. -/
def pmmTotalPages : PmmState → U32
  | .bitmap p => pmmBitmapTotalPages p
  | .buddy c => pmmBuddyTotalPages c.state

/-- `pmm_managed_base()`. -/
def pmmManagedBase : PmmState → U32
  | .bitmap p => pmmBitmapManagedBase p
  | .buddy c => pmmBuddyManagedBase c.state

/-- A frame that a backend will not give as it is: a page that is not free, or no page of its regions. -/
def PmmState.InUse : PmmState → U32 → Prop
  | .bitmap p, f => ¬ ∃ ri i, p.HasPage ri i f ∧ p.bit ri i = some false
  | .buddy c, f => f ∈ c.live ∨ ¬ ∃ idx < c.state.totalPages, f = indexToPhys c.state idx

/-! ### The buddy allocator with single pages -/

/-- The allocator serves the area, and the blocks that are not free are the live pages. -/
structure BuddyPages.Serves (c : BuddyPages) (A : BuddyArea) : Prop where
  serves : c.state.Serves A
  describes : ∃ free blocks, c.state.Describes free [] blocks ∧ (∀ b ∈ blocks, b.order = 0) ∧
    c.live.Perm (blocks.map fun b => indexToPhys c.state (blockIdx b))

namespace BuddyPages.Serves

variable {c : BuddyPages} {A : BuddyArea}

/-- **Allocation** fails, or gives a page of the area that nobody holds. -/
theorem alloc (h : c.Serves A) :
    (pmmBuddyAllocPage c.state = some (c.state, 0#32)) ∨
      ∃ s page, pmmBuddyAllocPage c.state = some (s, page) ∧ page ≠ 0#32 ∧ page ∉ c.live ∧
        c.state.SameZone s ∧ (∃ idx < s.totalPages, page = indexToPhys s idx) ∧
        BuddyPages.Serves ⟨s, page :: c.live⟩ A := by
  obtain ⟨free, blocks, hdesc, hsingle, hlive⟩ := h.describes
  rcases pmmBuddyAllocPage_spec hdesc h.serves with hres | ⟨s, free', b, hres, hb, hdesc', hsame⟩
  · exact .inl hres
  right
  have hserves := h.serves.of_sameZone hsame
  have hlt := blockIdx_lt (hdesc'.stop_le (.inr (List.mem_cons_self)))
  refine ⟨s, _, hres, indexToPhys_ne_zero hserves hlt, fun hmem => ?_, hsame, ⟨_, hlt, rfl⟩, hserves,
    free', b :: blocks, hdesc', ?_, ?_⟩
  · -- the page of another block has another number
    obtain ⟨b', hb', heq⟩ := List.mem_map.mp (hlive.mem_iff.mp hmem)
    rw [← indexToPhys_sameZone hsame] at heq
    have hlt' := blockIdx_lt (hdesc'.stop_le (.inr (List.mem_cons_of_mem b hb')))
    have hidx := congrArg (physToIndex s) heq
    rw [physToIndex_indexToPhys hserves hlt', physToIndex_indexToPhys hserves hlt] at hidx
    obtain rfl := hdesc'.inj (.inr (List.mem_cons_of_mem b hb')) (.inr List.mem_cons_self) hidx
    exact (List.nodup_cons.mp hdesc'.nodup).1 hb'
  · intro b' hb'
    rcases List.mem_cons.mp hb' with rfl | hb'
    exacts [hb, hsingle b' hb']
  · rw [List.map_cons]
    have hmap : blocks.map (fun b => indexToPhys s (blockIdx b)) =
        blocks.map fun b => indexToPhys c.state (blockIdx b) :=
      List.map_congr_left fun b' _ => indexToPhys_sameZone hsame (blockIdx b')
    rw [hmap]
    exact hlive.cons _

/-- **A live page can be given back.** -/
theorem free (h : c.Serves A) {page : U32} (hmem : page ∈ c.live) :
    c.state.SameZone (pmmBuddyFreePage page c.state) ∧
      BuddyPages.Serves ⟨pmmBuddyFreePage page c.state, c.live.erase page⟩ A := by
  obtain ⟨free, blocks, hdesc, hsingle, hlive⟩ := h.describes
  obtain ⟨b, hb, rfl⟩ := List.mem_map.mp (hlive.mem_iff.mp hmem)
  obtain ⟨free', hdesc', hsame⟩ := pmmBuddyFreePage_spec hdesc h.serves hb
  refine ⟨hsame, h.serves.of_sameZone hsame, free', blocks.erase b, hdesc',
    fun b' hb' => hsingle b' (List.mem_of_mem_erase hb'), ?_⟩
  have hmap : (blocks.erase b).map (fun b' => indexToPhys
      (pmmBuddyFreePage (indexToPhys c.state (blockIdx b)) c.state) (blockIdx b')) =
      (blocks.erase b).map fun b' => indexToPhys c.state (blockIdx b') :=
    List.map_congr_left fun b' _ => indexToPhys_sameZone hsame (blockIdx b')
  rw [hmap]
  have hperm := hlive.trans ((List.perm_cons_erase hb).map _)
  have herase := hperm.erase (indexToPhys c.state (blockIdx b))
  rwa [List.map_cons, List.erase_cons_head] at herase

end BuddyPages.Serves

/-- The initialised buddy allocator serves its area. -/
theorem buddyInitArea_serves (A : BuddyArea) (s₀ : BuddyState) :
    ∃ s, buddyInitArea A s₀ = some s ∧ BuddyPages.Serves ⟨s, []⟩ A := by
  obtain ⟨tiled, free₀, hinit, hdesc, hbase, htotal, hready⟩ := buddyInitZone_spec A s₀
  have hserves : tiled.Serves A := ⟨hbase, htotal, hready⟩
  obtain ⟨s, free, hself, hs, hsame⟩ := buddySelftest_spec hdesc hserves
  refine ⟨s, ?_, hserves.of_sameZone hsame, free, [], hs, fun b hb => absurd hb List.not_mem_nil, .refl _⟩
  rw [buddyInitArea, hinit, Option.bind_some, hself]

/-! ### Zones -/

/-- What `pmm_init` fixes: the regions of the bitmap allocator, or the area of the buddy allocator, if it
found one. -/
inductive PmmZone where
  | bitmap (p₀ : BitmapPmm)
  | buddy (A : Option BuddyArea)

/-- A page of the zone. -/
def PmmZone.HasPage : PmmZone → U32 → Prop
  | .bitmap p₀, f => ∃ ri i, p₀.HasPage ri i f
  | .buddy (some A), f => ∃ i < A.managedPages.toNat, f.toNat = A.managedStart.toNat + i * 4096
  | .buddy none, _ => False

/-- **The invariant of either backend.** -/
def PmmState.InZone : PmmState → PmmZone → Prop
  | .bitmap p, .bitmap p₀ => p.Sound ∧ p.Apart ∧ p₀.SamePmm p
  | .buddy c, .buddy (some A) => c.Serves A
  | .buddy c, .buddy none => c.state.ready = false ∧ c.live = []
  | _, _ => False

section Calls
variable {q : PmmState} {Z : PmmZone}

/-- **`pmm_bitmap_alloc_page`** gives an aligned page of the zone that was not in use, or `NULL`. -/
theorem bitmap_alloc {p p₀ : BitmapPmm} (h : (PmmState.bitmap p).InZone (.bitmap p₀)) :
    ∃ page q', pmmAllocPage (.bitmap p) = some (page, q') ∧ q'.InZone (.bitmap p₀) ∧
      (∀ f, (PmmState.bitmap p).InUse f → q'.InUse f) ∧
      (page ≠ 0#32 → page.PageAligned ∧ ¬ (PmmState.bitmap p).InUse page ∧ q'.InUse page ∧
        (PmmZone.bitmap p₀).HasPage page) := by
  obtain ⟨hsound, hapart, hsame⟩ := h
  refine ⟨_, _, rfl, ?_⟩
  rcases hsound.alloc with ⟨heq, -⟩ | ⟨ri, i, hmarks⟩
  · rw [heq]
    exact ⟨⟨hsound, hapart, hsame⟩, fun f hf => hf, fun hne => absurd rfl hne⟩
  · have hpage := hmarks.hasPage
    have hapart' := hapart.of_same hmarks.same
    have hfree : ∀ rj j f, (pmmBitmapAllocPage p).1.HasPage rj j f →
        (pmmBitmapAllocPage p).1.bit rj j = some false →
        p.HasPage rj j f ∧ p.bit rj j = some false ∧ ¬ (rj = ri ∧ j = i) := by
      intro rj j f hpage' hbit
      rw [hmarks.bit] at hbit
      split at hbit
      · cases hbit
      · rename_i hne
        exact ⟨hmarks.same.symm.hasPage hpage', hbit, hne⟩
    refine ⟨⟨hsound.marks hmarks, hapart', hsame.trans hmarks.same⟩, fun f hf => ?_, fun _ => ⟨?_, ?_, ?_, ?_⟩⟩
    · rintro ⟨rj, j, hpage', hbit⟩
      obtain ⟨h₁, h₂, -⟩ := hfree rj j f hpage' hbit
      exact hf ⟨rj, j, h₁, h₂⟩
    · obtain ⟨r, hr, hi, haddr⟩ := hpage
      rw [← haddr]
      exact (hsound.regions r (List.mem_of_getElem? hr)).toShape.indexToAddr_aligned hi
    · exact fun hno => hno ⟨ri, i, hpage, hmarks.bit_before⟩
    · rintro ⟨rj, j, hpage', hbit⟩
      obtain ⟨h₁, -, hne⟩ := hfree rj j _ hpage' hbit
      exact hne (hapart.distinct _ _ _ _ _ h₁ hpage)
    · exact ⟨ri, i, hsame.symm.hasPage hpage⟩

/-- **`pmm_bitmap_free_page`** leaves the other pages in use. -/
theorem bitmap_free {p p₀ : BitmapPmm} (h : (PmmState.bitmap p).InZone (.bitmap p₀)) (g : U32) :
    (pmmFreePage g (.bitmap p)).InZone (.bitmap p₀) ∧
      ∀ f, (PmmState.bitmap p).InUse f → f ≠ g → (pmmFreePage g (.bitmap p)).InUse f := by
  obtain ⟨hsound, hapart, hsame⟩ := h
  rcases hsound.free g with ⟨heq, -⟩ | ⟨ri, i, -, hmarks⟩
  · rw [pmmFreePage, heq]
    exact ⟨⟨hsound, hapart, hsame⟩, fun f hf _ => hf⟩
  · refine ⟨⟨hsound.marks hmarks, hapart.of_same hmarks.same, hsame.trans hmarks.same⟩, fun f hf hne => ?_⟩
    rintro ⟨rj, j, hpage, hbit⟩
    have hpage' := hmarks.same.symm.hasPage hpage
    rw [hmarks.bit] at hbit
    split at hbit
    · -- the page that was freed has the address `g`
      rename_i heq
      obtain ⟨rfl, rfl⟩ := heq
      obtain ⟨r, hr, -, hf⟩ := hpage'
      obtain ⟨r', hr', -, hg⟩ := hmarks.hasPage
      rw [hr] at hr'
      obtain rfl := Option.some.inj hr'
      exact hne (hf.symm.trans hg)
    · exact hf ⟨rj, j, hpage', hbit⟩

/-- **`pmm_buddy_alloc_page`** gives an aligned page of the zone that was not in use, or `NULL`. -/
theorem buddy_alloc {c : BuddyPages} {A : BuddyArea} (h : c.Serves A) :
    ∃ page q', pmmAllocPage (.buddy c) = some (page, q') ∧ q'.InZone (.buddy (some A)) ∧
      (∀ f, (PmmState.buddy c).InUse f → q'.InUse f) ∧
      (page ≠ 0#32 → page.PageAligned ∧ ¬ (PmmState.buddy c).InUse page ∧ q'.InUse page ∧
        (PmmZone.buddy (some A)).HasPage page) := by
  rcases h.alloc with hres | ⟨s, page, hres, hne, hnew, hsame, ⟨idx, hidx, rfl⟩, hserves⟩
  · refine ⟨0#32, .buddy c, ?_, h, fun f hf => hf, fun hne => absurd rfl hne⟩
    rw [pmmAllocPage, hres]
    rfl
  · have haddr := indexToPhys_toNat hserves.serves hidx
    refine ⟨indexToPhys s idx, .buddy ⟨s, indexToPhys s idx :: c.live⟩, ?_, hserves, fun f hf => ?_, fun _ => ⟨?_, ?_, ?_, ?_⟩⟩
    · rw [pmmAllocPage, hres, Option.map_some, if_neg hne]
    · rcases hf with hf | hf
      · exact .inl (List.mem_cons_of_mem _ hf)
      · refine .inr fun ⟨k, hk, heq⟩ => hf ⟨k, ?_, ?_⟩
        · rwa [← hsame.totalPages]
        · rw [heq, indexToPhys_sameZone hsame]
    · rw [U32.pageAligned_iff, haddr]
      exact Nat.dvd_add ((U32.pageAligned_iff _).mp A.start_aligned) (Nat.dvd_mul_left ..)
    · rintro (hf | hf)
      · exact hnew hf
      · refine hf ⟨idx, ?_, indexToPhys_sameZone hsame idx⟩
        rwa [← hsame.totalPages]
    · exact .inl List.mem_cons_self
    · refine ⟨idx.toNat, ?_, haddr⟩
      rw [← hserves.serves.totalPages]
      exact hidx

/-- **`pmm_buddy_free_page`** leaves the other pages in use. -/
theorem buddy_free {c : BuddyPages} {A : BuddyArea} (h : c.Serves A) (g : U32) :
    (pmmFreePage g (.buddy c)).InZone (.buddy (some A)) ∧
      ∀ f, (PmmState.buddy c).InUse f → f ≠ g → (pmmFreePage g (.buddy c)).InUse f := by
  rw [pmmFreePage]
  by_cases hmem : c.live.contains g = true
  · obtain ⟨hsame, hserves⟩ := h.free (List.contains_iff_mem.mp hmem)
    rw [if_pos hmem]
    refine ⟨hserves, fun f hf hne => ?_⟩
    rcases hf with hf | hf
    · exact .inl ((List.mem_erase_of_ne hne).mpr hf)
    · refine .inr fun ⟨k, hk, heq⟩ => hf ⟨k, ?_, ?_⟩
      · rwa [← hsame.totalPages]
      · rw [heq, indexToPhys_sameZone hsame]
  · rw [if_neg hmem]
    exact ⟨h, fun f hf _ => hf⟩

/-- **Allocation from either backend.** -/
theorem PmmState.InZone.alloc (h : q.InZone Z) :
    ∃ page q', pmmAllocPage q = some (page, q') ∧ q'.InZone Z ∧ (∀ f, q.InUse f → q'.InUse f) ∧
      (page ≠ 0#32 → page.PageAligned ∧ ¬ q.InUse page ∧ q'.InUse page ∧ Z.HasPage page) := by
  match q, Z, h with
  | .bitmap p, .bitmap p₀, h => exact bitmap_alloc h
  | .buddy c, .buddy (some A), h => exact buddy_alloc h
  | .buddy c, .buddy none, h =>
    refine ⟨0#32, .buddy c, ?_, h, fun f hf => hf, fun hne => absurd rfl hne⟩
    rw [pmmAllocPage, pmmBuddyAllocPage, if_pos (by simp [h.1])]
    rfl

/-- **Giving a page back to either backend.** -/
theorem PmmState.InZone.free (h : q.InZone Z) (g : U32) :
    (pmmFreePage g q).InZone Z ∧ ∀ f, q.InUse f → f ≠ g → (pmmFreePage g q).InUse f := by
  match q, Z, h with
  | .bitmap p, .bitmap p₀, h => exact bitmap_free h g
  | .buddy c, .buddy (some A), h => exact buddy_free h g
  | .buddy c, .buddy none, h =>
    have heq : pmmFreePage g (.buddy c) = .buddy c := by
      rw [pmmFreePage, h.2]
      rfl
    rw [heq]
    exact ⟨h, fun f hf _ => hf⟩

end Calls

/-! ### The physical allocator -/

/-- A state of the physical allocator in its zone. -/
abbrev PmmIn (Z : PmmZone) := {q : PmmState // q.InZone Z}

/-- `pmm_alloc_page()`, which returns. -/
def PmmIn.allocPage {Z : PmmZone} (q : PmmIn Z) : U32 × PmmIn Z :=
  have hsome : (pmmAllocPage q.val).isSome := by
    obtain ⟨page, q', hres, -⟩ := q.property.alloc
    rw [hres]
    rfl
  (((pmmAllocPage q.val).get hsome).1, ⟨((pmmAllocPage q.val).get hsome).2, by
    obtain ⟨page, q', hres, hq', -⟩ := q.property.alloc
    simpa [hres] using hq'⟩)

/-- What `PmmIn.allocPage` answers. -/
theorem PmmIn.allocPage_eq {Z : PmmZone} (q : PmmIn Z) :
    pmmAllocPage q.val = some (q.allocPage.1, q.allocPage.2.val) := (Option.some_get _).symm

/-- **Either backend is a physical allocator** for the virtual memory manager. -/
def pmmBackend (Z : PmmZone) : LawfulPmm (PmmIn Z) where
  allocPage := PmmIn.allocPage
  totalPages q := pmmTotalPages q.val
  managedBase q := pmmManagedBase q.val
  freePage page q := ⟨pmmFreePage page q.val, (q.property.free page).1⟩
  InUse q f := q.val.InUse f
  lawful := by
    refine ⟨fun q f hf => ?_, fun q hne => ?_⟩
    · obtain ⟨page, q', hres, -, hmono, -⟩ := q.property.alloc
      obtain ⟨rfl, rfl⟩ := Prod.mk.inj (Option.some.inj (q.allocPage_eq.symm.trans hres))
      exact hmono f hf
    · obtain ⟨page, q', hres, -, -, hfresh⟩ := q.property.alloc
      obtain ⟨rfl, rfl⟩ := Prod.mk.inj (Option.some.inj (q.allocPage_eq.symm.trans hres))
      obtain ⟨haligned, hnew, huse, -⟩ := hfresh hne
      exact ⟨haligned, hnew, huse⟩
  free_mono q f g hf _ hne := (q.property.free g).2 f hf hne

/-- A page that is given is a page of the zone. -/
theorem PmmIn.allocPage_hasPage {Z : PmmZone} (q : PmmIn Z) (hne : q.allocPage.1 ≠ 0#32) :
    Z.HasPage q.allocPage.1 := by
  obtain ⟨page, q', hres, -, -, hfresh⟩ := q.property.alloc
  obtain ⟨rfl, rfl⟩ := Prod.mk.inj (Option.some.inj (q.allocPage_eq.symm.trans hres))
  exact (hfresh hne).2.2.2

/-- One call and its answer. -/
def pmmCall {Z : PmmZone} (q : PmmIn Z) : PmmCall → Option (PmmIn Z × U32)
  | .allocPage => some (q.allocPage.2, q.allocPage.1)
  | .freePage page => some ((pmmBackend Z).freePage page q, 0#32)

/-- The physical allocator as a machine. -/
def pmmMachine {Z : PmmZone} (q : PmmIn Z) : Machine (PmmIn Z) PmmCall U32 := ⟨q, pmmCall⟩

/-- **In every run only pages of the zone are given.** -/
theorem pmm_run_hasPage {Z : PmmZone} (calls : List PmmCall) (q : PmmIn Z) :
    ∃ q' answers, (pmmMachine q).run calls = some (q', answers) ∧
      ∀ f ∈ answers, f ≠ 0#32 → Z.HasPage f := by
  have hrun : ∀ q₁ : PmmIn Z, ∃ q' answers, (pmmMachine q).runFrom q₁ calls = some (q', answers) ∧
      ∀ f ∈ answers, f ≠ 0#32 → Z.HasPage f := by
    induction calls with
    | nil => exact fun q₁ => ⟨q₁, [], rfl, fun f hf => absurd hf List.not_mem_nil⟩
    | cons call calls ih =>
      intro q₁
      obtain ⟨q₂, answer, hcall, hanswer⟩ : ∃ q₂ answer, pmmCall q₁ call = some (q₂, answer) ∧
          (answer ≠ 0#32 → Z.HasPage answer) := by
        cases call with
        | allocPage => exact ⟨_, _, rfl, q₁.allocPage_hasPage⟩
        | freePage page => exact ⟨_, _, rfl, fun hne => absurd rfl hne⟩
      obtain ⟨q', answers, hres, hall⟩ := ih q₂
      refine ⟨q', answer :: answers, ?_, fun f hf => ?_⟩
      · rw [Machine.runFrom_cons_of_step (M := pmmMachine q) hcall, hres]
        rfl
      · rcases List.mem_cons.mp hf with rfl | hf
        exacts [hanswer, hall f hf]
  exact hrun q

end Microkernel.Kernel
