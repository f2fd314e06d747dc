import Microkernel.Vmm.PagedMemory

/-! # The functions of `vmm.c` over physical memory

As long as the pointers to the page tables lead to their frames, the functions over the physical memory do
to the frames what the functions of `VmmState` do to the tables.

* **`PagedMemory.Implements`** relates a memory to a state: the frames of the page tables hold the words
  of the tables (or all frames do).
* **`PagedMemory.Implements.walk`**: the processor finds in the frames what the tables say.
* **`PagedMemory.ReachesTable`** is what a call needs: the pointer to the page table that it uses, or to
  the frame that it is given for one, leads to the frame.
* **`PagedMemory.Implements.mapPage`** and its siblings carry each function over, with what it writes. -/

namespace Microkernel.Vmm

open Function (update)
open Paging (pageOf dirIndex tableIndex frameOf Event)
open Pmm (bootTranslate)

/-! ### Words -/

section Words
variable {σ : Type*} {m m' : PagedMemory σ} {a f k : U32}

/-- The address of a word of a page does not wrap. -/
theorem word_toNat (ha : a.PageAligned) (hk : k.toNat < 1024) :
    (a + 4#32 * k).toNat = a.toNat + 4 * k.toNat := by
  have hdvd := (U32.pageAligned_iff a).mp ha
  have hlt := a.isLt
  rw [BitVec.toNat_add, BitVec.toNat_mul, show (4#32).toNat = 4 from rfl]
  omega

/-- The words of a page lie in it. -/
theorem pageOf_word (ha : a.PageAligned) (hk : k.toNat < 1024) : pageOf (a + 4#32 * k) = pageOf a := by
  have hdvd := (U32.pageAligned_iff a).mp ha
  apply BitVec.eq_of_toNat_eq
  rw [pageOf_toNat, pageOf_toNat, word_toNat ha hk]
  omega

/-- Its place in the page is its index. -/
theorem wordOf_word (ha : a.PageAligned) (hk : k.toNat < 1024) :
    PagedMemory.wordOf (a + 4#32 * k) = k.setWidth 10 := by
  have hdvd := (U32.pageAligned_iff a).mp ha
  apply BitVec.eq_of_toNat_eq
  unfold PagedMemory.wordOf
  rw [BitVec.extractLsb'_toNat, Nat.shiftRight_eq_div_pow, word_toNat ha hk, BitVec.toNat_setWidth]
  omega

/-- A table index is below 1024. -/
theorem ptIndex_lt (v : U32) : (ptIndex v).toNat < 1024 := by
  rw [ptIndex_toNat]
  exact Nat.mod_lt _ (by decide)

/-- Reading a word of a frame that its pointer leads to. -/
theorem PagedMemory.Reaches.load (h : m.Reaches f) (hf : f.PageAligned) (hk : k.toNat < 1024) :
    m.load (physToVirt f + 4#32 * k) = some (m.frames (pageOf f) (k.setWidth 10)) := by
  unfold PagedMemory.load
  rw [pageOf_word (physToVirt_aligned hf) hk, wordOf_word (physToVirt_aligned hf) hk, h, Option.map_some]

/-- Writing a word of the frame that a page shows. -/
theorem PagedMemory.store_word {g : BitVec 20} (h : m.shows (pageOf a) = some g) (ha : a.PageAligned)
    (hk : k.toNat < 1024) (x : U32) :
    m.store (a + 4#32 * k) x = some { m with
      frames := update m.frames g (update (m.frames g) (k.setWidth 10) x)
      events := m.events ++ [.storeTable g (k.setWidth 10) x] } := by
  unfold PagedMemory.store
  rw [pageOf_word ha hk, wordOf_word ha hk, h, Option.map_some]

/-- Writing a word of a frame that its pointer leads to. -/
theorem PagedMemory.Reaches.store (h : m.Reaches f) (hf : f.PageAligned) (hk : k.toNat < 1024) (x : U32) :
    m.store (physToVirt f + 4#32 * k) x = some { m with
      frames := update m.frames (pageOf f) (update (m.frames (pageOf f)) (k.setWidth 10) x)
      events := m.events ++ [.storeTable (pageOf f) (k.setWidth 10) x] } :=
  PagedMemory.store_word h (physToVirt_aligned hf) hk x

/-- A frame that no directory entry names can be rewritten. -/
theorem PagedMemory.shows_update {g : BitVec 20} (hunread : ∀ p k, ¬ m.tables.Reads p g k)
    (words : BitVec 10 → BitVec 32) (hpd : m'.pd = m.pd)
    (hframes : m'.frames = update m.frames g words) (hready : m'.ready = m.ready) (p : BitVec 20) :
    m'.shows p = m.shows p := by
  have hwalk := Paging.Tables.walk_update (hunread p) words
  have htables : m'.tables = { m.tables with table := update m.tables.table g words } := by
    unfold PagedMemory.tables
    rw [hpd, hframes]
  unfold PagedMemory.shows
  rw [hready, htables, hwalk]

/-- **`memzero_page`** clears the frame that its page shows word by word, as no write changes what is shown. -/
theorem PagedMemory.memzeroPage_shows {g : BitVec 20} (h : m.shows (pageOf a) = some g) (ha : a.PageAligned)
    (hunread : ∀ p k, ¬ m.tables.Reads p g k) (n : ℕ) (hn : n ≤ 1024) :
    ∃ m', InMemory.memzeroPage a n m = some m' ∧ m' = { m with
      frames := update m.frames g fun k => if k.toNat < n then 0#32 else m.frames g k
      events := m.events ++ (List.range n).map fun k => .storeTable g (BitVec.ofNat 10 k) 0#32 } := by
  induction n with
  | zero =>
    refine ⟨m, rfl, ?_⟩
    simp only [Nat.not_lt_zero, if_false, Function.update_eq_self, List.range_zero, List.map_nil,
      List.append_nil]
  | succ n ih =>
    obtain ⟨m₁, hres, hm₁⟩ := ih (by omega)
    have hshow : m₁.shows (pageOf a) = some g := by
      have hshows := PagedMemory.shows_update hunread
        (fun k => if k.toNat < n then 0#32 else m.frames g k)
        (show m₁.pd = m.pd by rw [hm₁]) (show m₁.frames = _ by rw [hm₁])
        (show m₁.ready = m.ready by rw [hm₁])
      exact (hshows _).trans h
    have hk : (BitVec.ofNat 32 n).toNat < 1024 := by
      rw [BitVec.toNat_ofNat]
      omega
    have hindex : (BitVec.ofNat 32 n).setWidth 10 = BitVec.ofNat 10 n := by
      apply BitVec.eq_of_toNat_eq
      rw [BitVec.toNat_setWidth, BitVec.toNat_ofNat, BitVec.toNat_ofNat]
      omega
    refine ⟨_, (congrArg (Option.bind · _) hres).trans (PagedMemory.store_word hshow ha hk 0#32), ?_⟩
    have hwords : update (fun k : BitVec 10 => if k.toNat < n then 0#32 else m.frames g k)
        (BitVec.ofNat 10 n) 0#32 =
          fun k => if k.toNat < n + 1 then 0#32 else m.frames g k := by
      funext k
      have hkn : k = BitVec.ofNat 10 n ↔ k.toNat = n := by
        rw [← BitVec.toNat_inj, BitVec.toNat_ofNat, Nat.mod_eq_of_lt (by omega)]
      rw [Function.update_apply]
      by_cases hk : k.toNat = n
      · rw [if_pos (hkn.mpr hk), if_pos (by omega)]
      · have hlt : k.toNat < n + 1 ↔ k.toNat < n := by omega
        rw [if_neg fun heq => hk (hkn.mp heq)]
        simp only [hlt]
    rw [hindex, hm₁]
    simp only [Function.update_self, Function.update_idem, hwords, List.range_succ, List.map_append,
      List.map_cons, List.map_nil, List.append_assoc]

/-- Clearing a frame that no page is translated through clears its words, in turn. -/
theorem PagedMemory.Reaches.memzeroPage (h : m.Reaches f) (hf : f.PageAligned)
    (hunread : ∀ p k, ¬ m.tables.Reads p (pageOf f) k) (n : ℕ) (hn : n ≤ 1024) :
    ∃ m', InMemory.memzeroPage (physToVirt f) n m = some m' ∧ m' = { m with
      frames := update m.frames (pageOf f) fun k => if k.toNat < n then 0#32 else m.frames (pageOf f) k
      events := m.events ++ (List.range n).map fun k => .storeTable (pageOf f) (BitVec.ofNat 10 k) 0#32 } :=
  PagedMemory.memzeroPage_shows h (physToVirt_aligned hf) hunread n hn

end Words

/-! ### The relation -/

section Implements
variable {σ : Type*} {ops : PmmOps σ} {InUse : σ → U32 → Prop} {m m' : PagedMemory σ} {s s' : VmmState σ}
  {All : Prop} {f v x : U32}

/-- **The memory implements the tables**: the static data are the same, and the frames of the page tables,
or all frames, hold the words that the state keeps under their pointers. -/
structure PagedMemory.Implements (All : Prop) (m : PagedMemory σ) (s : VmmState σ) : Prop where
  pd : m.pd = s.pd
  ready : m.ready = s.ready
  nextVaddr : m.nextVaddr = s.nextVaddr
  directMapEnd : m.directMapEnd = s.directMapEnd
  pmm : m.pmm = s.pmm
  words : ∀ f k, All ∨ s.IsTable (pageAddr f) →
    m.frames f k = s.table (physToVirt (pageAddr f)) (k.setWidth 32)

/-- The state whose tables are the frames. -/
def PagedMemory.view (m : PagedMemory σ) : VmmState σ where
  pd := m.pd
  table v k := m.frames (pageOf (virtToPhys v)) (k.setWidth 10)
  ready := m.ready
  nextVaddr := m.nextVaddr
  directMapEnd := m.directMapEnd
  pmm := m.pmm

/-- A memory implements the tables read from it. -/
theorem PagedMemory.implements_view (All : Prop) (m : PagedMemory σ) : m.Implements All m.view := by
  refine ⟨rfl, rfl, rfl, rfl, rfl, fun f k _ => ?_⟩
  unfold PagedMemory.view
  dsimp only
  rw [virtToPhys_physToVirt, pageOf_pageAddr, show (k.setWidth 32).setWidth 10 = k by simp]

/-- The frame that a translation reads is a page table. -/
theorem PagedMemory.Implements.isTable_of_reads (h : m.Implements All s) {p g : BitVec 20} {k : BitVec 10}
    (hr : m.tables.Reads p g k) : s.IsTable (pageAddr g) := by
  have hdir : m.tables.dir = s.tables.dir := by
    unfold PagedMemory.tables VmmState.tables
    rw [h.pd]
  have hr' : s.tables.Reads p g k :=
    ⟨hdir ▸ hr.present, hdir ▸ hr.small, hdir ▸ hr.frame, hr.index⟩
  exact ⟨_, VmmState.dir_of_reads hr'⟩

/-- **The processor finds in the frames what the tables say.** -/
theorem PagedMemory.Implements.walk (h : m.Implements All s) (p : BitVec 20) :
    m.tables.walk p = s.tables.walk p := by
  have hdir : m.tables.dir (dirIndex p) = s.tables.dir (dirIndex p) := by
    unfold PagedMemory.tables VmmState.tables
    rw [h.pd]
  unfold Paging.Tables.walk Paging.Tables.under
  rw [hdir]
  by_cases hpresent : Paging.present (s.tables.dir (dirIndex p)) = true
  · have htable : s.IsTable (pageAddr (frameOf (s.tables.dir (dirIndex p)))) := by
      refine ⟨(dirIndex p).setWidth 32, ?_⟩
      rw [← entryFrame_eq]
      exact if_pos ((isPresent_iff_present _).mpr hpresent)
    have hwords : m.tables.table (frameOf (s.tables.dir (dirIndex p))) (tableIndex p) =
        s.tables.table (frameOf (s.tables.dir (dirIndex p))) (tableIndex p) :=
      h.words _ _ (.inr htable)
    rw [hwords]
  · rw [if_pos (by simpa using hpresent), if_pos (by simpa using hpresent)]

/-- All frames. -/
theorem PagedMemory.Implements.tables (h : m.Implements True s) : m.tables = s.tables := by
  unfold PagedMemory.tables VmmState.tables
  rw [h.pd]
  congr 1
  funext f k
  exact h.words f k (.inl trivial)

/-- The frame that the tables show for a page. -/
theorem VmmState.walk_frame (hopen : s.OpenDirectory) (p : BitVec 20) :
    (s.tables.walk p).map (·.frame) = (s.translate (pageAddr p)).map pageOf := by
  have hpd : s.tables.dir (dirIndex p) = s.pd (pdIndex (pageAddr p)) := by
    rw [pdIndex_eq, pageOf_pageAddr]
    rfl
  have hentry : s.tables.table (frameOf (s.pd (pdIndex (pageAddr p)))) (tableIndex p) =
      s.table (physToVirt (entryFrame (s.pd (pdIndex (pageAddr p))))) (ptIndex (pageAddr p)) := by
    rw [ptIndex_eq, pageOf_pageAddr, entryFrame_eq]
    rfl
  unfold Paging.Tables.walk Paging.Tables.under Paging.translation
  rw [hpd, VmmState.translate_eq]
  by_cases hpde : IsPresent (s.pd (pdIndex (pageAddr p)))
  · rw [if_neg (by simpa using (isPresent_iff_present _).mp hpde), if_neg (by simp [(hopen _ hpde).2]),
      hentry, VmmState.entry_of_present hpde]
    generalize s.table (physToVirt (entryFrame (s.pd (pdIndex (pageAddr p))))) (ptIndex (pageAddr p)) = e
    unfold presentEntry
    by_cases he : IsPresent e
    · rw [if_pos ((isPresent_iff_present e).mp he), if_pos he, Option.map_some, Option.map_some,
        Option.map_some, entryFrame_eq, pageOf_pageAddr]
    · rw [if_neg fun hp => he ((isPresent_iff_present e).mpr hp), if_neg he]
      rfl
  · have hnone : s.entry (pageAddr p) = none :=
      TwoLevelMap.lookup_of_none (VmmState.dir_of_not_present hpde) _
    rw [if_pos (by simpa [isPresent_iff_present] using hpde), hnone]
    rfl

/-- **What a page shows**, in terms of the tables. -/
theorem PagedMemory.Implements.shows (h : m.Implements All s) (hopen : s.OpenDirectory) (p : BitVec 20) :
    m.shows p = if s.ready then (s.translate (pageAddr p)).map pageOf
      else (bootTranslate (pageAddr p)).map pageOf := by
  unfold PagedMemory.shows
  rw [h.ready, h.walk, VmmState.walk_frame hopen]

/-- Tables with the same translations show the same frames. -/
theorem PagedMemory.Implements.shows_eq (h : m.Implements All s) (h' : m'.Implements All s')
    (hopen : s.OpenDirectory) (hopen' : s'.OpenDirectory) (hready : s'.ready = s.ready)
    (hentry : ∀ v, s'.entry v = s.entry v) (p : BitVec 20) : m'.shows p = m.shows p := by
  rw [h.shows hopen, h'.shows hopen', hready, VmmState.translate_eq, VmmState.translate_eq, hentry]

/-- The pointer to a frame leads to it when the direct map has it. -/
theorem PagedMemory.Implements.reaches (h : m.Implements All s) (hopen : s.OpenDirectory)
    (hf : f.PageAligned) (hready : s.ready) (htrans : s.translate (physToVirt f) = some f) :
    m.Reaches f := by
  unfold PagedMemory.Reaches
  rw [h.shows hopen, if_pos hready, pageAddr_pageOf (physToVirt_aligned hf), htrans, Option.map_some]

/-- Under the boot directory, when the frame lies below 1 GiB. -/
theorem PagedMemory.reaches_of_boot (hready : m.ready = false) (hf : f.PageAligned)
    (hlt : f.toNat < 2 ^ 30) : m.Reaches f := by
  have hboot := Pmm.bootTranslate_physToVirt (p := f) (k := 0) (by omega)
  rw [show BitVec.ofNat 32 0 = 0#32 from rfl, BitVec.add_zero, BitVec.add_zero] at hboot
  unfold PagedMemory.Reaches PagedMemory.shows
  rw [hready, pageAddr_pageOf (physToVirt_aligned hf), hboot]
  rfl

/-- Whether a frame is reached is a matter of what the processor shows. -/
theorem PagedMemory.Reaches.congr (h : m.Reaches f) (hshows : ∀ p, m'.shows p = m.shows p) :
    m'.Reaches f := (hshows _).trans h

/-! ### Writes -/

/-- **Writing a word of a page table.** -/
theorem PagedMemory.Implements.storeWord (h : m.Implements All s) (hf : f.PageAligned) {k : U32}
    (hk : k.toNat < 1024)
    (hm' : m' = { m with
      frames := update m.frames (pageOf f) (update (m.frames (pageOf f)) (k.setWidth 10) x)
      events := m'.events })
    (hs' : s' = { s with table := update s.table (physToVirt f) (update (s.table (physToVirt f)) k x) })
    (htable : s.IsTable f) : m'.Implements All s' := by
  have hwords := h.words
  rw [hm', hs']
  refine ⟨h.pd, h.ready, h.nextVaddr, h.directMapEnd, h.pmm, fun g j hg => ?_⟩
  have hkj : j = k.setWidth 10 ↔ j.setWidth 32 = k := by
    rw [← BitVec.toNat_inj, ← BitVec.toNat_inj, BitVec.toNat_setWidth, BitVec.toNat_setWidth]
    omega
  dsimp only
  by_cases hgf : g = pageOf f
  · have hptr : physToVirt (pageAddr g) = physToVirt f := by rw [hgf, pageAddr_pageOf hf]
    rw [hptr, hgf, Function.update_self, Function.update_self, Function.update_apply,
      Function.update_apply]
    have hold := hwords (pageOf f) j (.inr (by rw [pageAddr_pageOf hf]; exact htable))
    rw [pageAddr_pageOf hf] at hold
    simp only [hkj]
    rw [hold]
  · have hptr : physToVirt (pageAddr g) ≠ physToVirt f := by
      rw [ne_eq, physToVirt_inj]
      rintro rfl
      exact hgf (pageOf_pageAddr g).symm
    rw [Function.update_of_ne hgf, Function.update_of_ne hptr]
    exact hwords g j hg

/-- A write into a frame that holds no page table. -/
theorem PagedMemory.Implements.storeOther (h : m.Implements False s) (hres : m.store v x = some m')
    (hother : ∀ g, m.shows (pageOf v) = some g → ¬ s.IsTable (pageAddr g)) : m'.Implements False s := by
  obtain ⟨g, hg, rfl⟩ := Option.map_eq_some_iff.mp hres
  refine ⟨h.pd, h.ready, h.nextVaddr, h.directMapEnd, h.pmm, fun f k hf => ?_⟩
  have hne : f ≠ g := by
    rintro rfl
    exact hother f hg (hf.resolve_left id)
  dsimp only
  rw [Function.update_of_ne hne]
  exact h.words f k hf

/-- **Linking a cleared frame** as a new page table. -/
theorem PagedMemory.Implements.link (h : m.Implements All s) (hf : f.PageAligned) {i e : U32} {pmm : σ}
    (he : entryTarget e = some f)
    (hm' : m' = { m with
      pmm := pmm
      frames := update m.frames (pageOf f)
        fun k => if k.toNat < 1024 then 0#32 else m.frames (pageOf f) k
      pd := update m.pd i e
      events := m'.events })
    (hs' : s' = { s with
      pmm := pmm
      table := update s.table (physToVirt f) (memzeroPage (s.table (physToVirt f)) 1024)
      pd := update s.pd i e }) : m'.Implements All s' := by
  have hwords := h.words
  rw [hm', hs']
  refine ⟨congrArg (update · i e) h.pd, h.ready, h.nextVaddr, h.directMapEnd, rfl, fun g j hg => ?_⟩
  dsimp only
  by_cases hgf : g = pageOf f
  · have hptr : physToVirt (pageAddr g) = physToVirt f := by rw [hgf, pageAddr_pageOf hf]
    have hj : (j.setWidth 32).toNat < 1024 := by
      rw [BitVec.toNat_setWidth]
      omega
    rw [hptr, hgf, Function.update_self, Function.update_self, memzeroPage_eq _ (by decide), if_pos hj,
      if_pos j.isLt]
  · have hptr : physToVirt (pageAddr g) ≠ physToVirt f := by
      rw [ne_eq, physToVirt_inj]
      rintro rfl
      exact hgf (pageOf_pageAddr g).symm
    rw [Function.update_of_ne hgf, Function.update_of_ne hptr]
    refine hwords g j (hg.imp_right fun ⟨i', hi'⟩ => ⟨i', ?_⟩)
    -- the entry that is set names the new frame
    dsimp only at hi'
    rw [Function.update_apply] at hi'
    split at hi'
    · rw [he] at hi'
      exact absurd (Option.some.inj hi') fun heq => hgf (by rw [heq, pageOf_pageAddr])
    · exact hi'

/-- Changing an entry of the directory without changing where it points. -/
theorem PagedMemory.Implements.storePde (h : m.Implements All s) {i e : U32}
    (he : entryTarget e = entryTarget (s.pd i) ∨ entryTarget e = none)
    (hs' : s' = { s with pd := update s.pd i e }) : (m.storePde i e).Implements All s' := by
  have hpd : (m.storePde i e).pd = s'.pd := by
    unfold PagedMemory.storePde
    rw [hs', h.pd]
  subst hs'
  refine ⟨hpd, h.ready, h.nextVaddr, h.directMapEnd, h.pmm, fun g j hg => ?_⟩
  refine h.words g j (hg.imp_right fun ⟨i', hi'⟩ => ?_)
  dsimp only at hi'
  rw [Function.update_apply] at hi'
  split at hi'
  · rcases he with he | he
    · exact ⟨i, he.symm.trans hi'⟩
    · rw [he] at hi'
      exact absurd hi' (by simp)
  · exact ⟨i', hi'⟩

/-- Other static data. -/
theorem PagedMemory.Implements.request (h : m.Implements All s) (pmm : σ) :
    PagedMemory.Implements All { m with pmm := pmm } { s with pmm := pmm } :=
  ⟨h.pd, h.ready, h.nextVaddr, h.directMapEnd, rfl, h.words⟩

/-- The record of the events. -/
theorem PagedMemory.Implements.record (h : m.Implements All s) (events : List Event) :
    PagedMemory.Implements All { m with events := events } s :=
  ⟨h.pd, h.ready, h.nextVaddr, h.directMapEnd, h.pmm, h.words⟩

/-- `invlpg` changes no table. -/
theorem PagedMemory.Implements.invlpg (h : m.Implements All s) (virt : U32) :
    (m.invlpg virt).Implements All s := by
  unfold PagedMemory.invlpg
  split
  · exact h.record _
  · exact h

/-! ### The functions -/

/-- **What a call needs of a page table**: the pointer to the table of the directory entry leads to its
frame, or, where there is none, the pointer to the frame that is given for it. -/
def PagedMemory.ReachesTable (ops : PmmOps σ) (i : U32) (m : PagedMemory σ) : Prop :=
  if IsPresent (m.pd i) then m.Reaches (entryFrame (m.pd i))
  else (ops.allocPage m.pmm).1 ≠ 0#32 → m.Reaches (ops.allocPage m.pmm).1

/-- The frame of an entry is aligned. -/
theorem entryFrame_aligned (e : U32) : (entryFrame e).PageAligned := by
  rw [entryFrame_eq]
  exact pageAddr_aligned _

/-- **`vmm_ensure_page_table`** does the same in the memory, and leads to the same table. -/
theorem PagedMemory.Implements.ensurePageTable (h : m.Implements All s) (hops : ops.Lawful InUse)
    (hwf : s.WellFormed InUse) (hopen : s.OpenDirectory) {i : U32} (hreach : m.ReachesTable ops i) :
    ∃ m', InMemory.vmmEnsurePageTable ops i m = some (m', (vmmEnsurePageTable ops i s).2) ∧
      m'.Implements All (vmmEnsurePageTable ops i s).1 ∧
      m'.events = m.events ++ vmmEnsurePageTableEvents ops i s ∧ (∀ p, m'.shows p = m.shows p) ∧
      ((vmmEnsurePageTable ops i s).2 ≠ 0#32 → ∃ f, (vmmEnsurePageTable ops i s).2 = physToVirt f ∧
        f.PageAligned ∧ entryTarget ((vmmEnsurePageTable ops i s).1.pd i) = some f ∧ m'.Reaches f) := by
  obtain ⟨s₁, pt, hres, hwf₁, hext₁, hentry₁, -⟩ := vmmEnsurePageTable_spec hops hwf i
  have hopen₁ := vmmEnsurePageTable_directory (fun _ hf => openEntry_table hf) hopen hops i
  rw [hres] at hopen₁ ⊢
  dsimp only at hopen₁ ⊢
  have hfresh := hops.fresh s.pmm
  unfold PagedMemory.ReachesTable at hreach
  unfold vmmEnsurePageTable at hres
  unfold InMemory.vmmEnsurePageTable vmmEnsurePageTableEvents
  rw [congrFun h.pd i, h.pmm] at hreach ⊢
  obtain ⟨f, pmm, halloc⟩ : ∃ f pmm, ops.allocPage s.pmm = (f, pmm) := ⟨_, _, rfl⟩
  rw [halloc] at hfresh hres hreach ⊢
  dsimp only at hfresh hres hreach ⊢
  by_cases hpde : IsPresent (s.pd i)
  · -- the table is there already
    rw [if_pos hpde] at hres hreach ⊢
    obtain ⟨rfl, rfl⟩ := Prod.mk.inj hres
    exact ⟨m, rfl, h, by rw [if_pos hpde, List.append_nil], fun _ => rfl,
      fun _ => ⟨_, rfl, entryFrame_aligned _, if_pos hpde, hreach⟩⟩
  rw [if_neg hpde] at hres hreach ⊢
  rw [if_neg hpde]
  by_cases hnull : f = 0#32
  · -- there is no frame for it
    rw [if_pos hnull] at hres ⊢
    obtain ⟨rfl, rfl⟩ := Prod.mk.inj hres
    exact ⟨_, rfl, h.request pmm, by rw [if_pos hnull, List.append_nil], fun _ => rfl,
      fun hne => absurd rfl hne⟩
  rw [if_neg hnull] at hres ⊢
  rw [if_neg hnull]
  obtain ⟨halign, hnew, -⟩ := hfresh hnull
  obtain ⟨hs₁, rfl⟩ := Prod.mk.inj hres
  -- no directory entry names the new frame while it is cleared
  have hreach₁ : PagedMemory.Reaches { m with pmm := pmm } f := hreach hnull
  have hunread : ∀ p k, ¬ (PagedMemory.tables { m with pmm := pmm }).Reads p (pageOf f) k := by
    intro p k hr
    obtain ⟨j, hj⟩ := h.isTable_of_reads (p := p) (k := k) hr
    rw [pageAddr_pageOf halign] at hj
    exact hnew (hwf.inUse j f hj)
  obtain ⟨m₁, hzero, hm₁⟩ := hreach₁.memzeroPage halign hunread 1024 le_rfl
  obtain ⟨m', hm'⟩ : ∃ m', m' = m₁.storePde i (f ||| ptePresent ||| pteWritable) := ⟨_, rfl⟩
  have himpl : m'.Implements All s₁ := by
    refine h.link halign (entryTarget_table halign) ?_ hs₁.symm
    rw [hm', hm₁]
    rfl
  have hshows := h.shows_eq himpl hopen hopen₁ hext₁.ready hentry₁
  have htarget : entryTarget (s₁.pd i) = some f := by
    rw [← hs₁]
    dsimp only
    rw [Function.update_self, entryTarget_table halign]
  refine ⟨m', ?_, himpl, ?_, hshows, fun _ => ⟨f, rfl, halign, htarget, ?_⟩⟩
  · rw [hzero, hm']
    rfl
  · rw [hm', hm₁]
    unfold PagedMemory.storePde memzeroPageEvents
    simp only [List.map_map, Function.comp_def, List.append_assoc]
  · exact (hreach hnull).congr hshows

/-- The page table of an address is written where the processor reads it, with its invalidation. -/
theorem PagedMemory.Implements.writeEntry (h : m.Implements All s) {virt : U32} (hf : f.PageAligned)
    (htarget : entryTarget (s.pd (pdIndex virt)) = some f) (hreach : m.Reaches f) (e : U32) :
    ∃ m', (m.store (physToVirt f + 4#32 * ptIndex virt) e).map (·.invlpg virt) = some m' ∧
      m'.Implements All { s with
        table := update s.table (physToVirt f) (update (s.table (physToVirt f)) (ptIndex virt) e) } ∧
      m'.events = m.events ++
        ([.storeTable (pageOf (virtToPhys (physToVirt f))) ((ptIndex virt).setWidth 10) e] ++
          if s.ready then [.invlpg virt] else []) := by
  refine ⟨_, congrArg (Option.map _) (hreach.store hf (ptIndex_lt virt) e), ?_, ?_⟩
  · exact (h.storeWord hf (ptIndex_lt virt) rfl rfl ⟨_, htarget⟩).invlpg virt
  · rw [virtToPhys_physToVirt]
    unfold PagedMemory.invlpg
    dsimp only
    rw [h.ready]
    cases s.ready with
    | false => simp only [Bool.false_eq_true, if_false, List.append_nil]
    | true => simp only [if_true, List.append_assoc]

/-- The user bit in a directory entry, in the memory as well: no pointer leads elsewhere for it. -/
theorem PagedMemory.Implements.storeUser (h : m.Implements All s) (hopen : s.OpenDirectory) {i : U32}
    (hreach : m.Reaches f) :
    (m.storePde i (m.pd i ||| pteUser)).Implements All
        { s with pd := update s.pd i (s.pd i ||| pteUser) } ∧
      (m.storePde i (m.pd i ||| pteUser)).Reaches f := by
  rw [h.pd]
  have himpl := h.storePde (i := i) (.inl (entryTarget_user _)) rfl
  refine ⟨himpl, hreach.congr fun p => h.shows_eq himpl hopen (fun j => ?_) rfl (fun v => ?_) p⟩
  · -- the entries stay open to the kernel
    dsimp only
    rw [Function.update_apply]
    split
    exacts [(hopen _).orUser, hopen j]
  · -- and lead to the same tables
    unfold VmmState.entry VmmState.dir
    congr 1
    funext j
    dsimp only
    rw [Function.update_apply]
    split
    · rename_i hj
      rw [entryTarget_user, hj]
    · rfl

/-- The branch of `vmm_map_page` that may set the user bit. -/
theorem PagedMemory.Implements.orUser (h : m.Implements All s) (hopen : s.OpenDirectory) {i : U32}
    (htarget : entryTarget (s.pd i) = some f) (hreach : m.Reaches f) (flags : U32) :
    ∃ (m' : PagedMemory σ) (s' : VmmState σ),
      m' = (if flags &&& pteUser ≠ 0#32 then m.storePde i (m.pd i ||| pteUser) else m) ∧
      s' = (if flags &&& pteUser ≠ 0#32 then { s with pd := update s.pd i (s.pd i ||| pteUser) } else s) ∧
      m'.Implements All s' ∧ entryTarget (s'.pd i) = some f ∧ m'.Reaches f ∧ s'.ready = s.ready ∧
      m'.events = m.events ++ (if flags &&& pteUser ≠ 0#32 then
        [.storeDir (i.setWidth 10) (s.pd i ||| pteUser)] else []) := by
  by_cases huser : flags &&& pteUser ≠ 0#32
  · obtain ⟨himpl, hreach'⟩ := h.storeUser hopen (i := i) hreach
    refine ⟨_, _, (if_pos huser).symm, (if_pos huser).symm, himpl, ?_, hreach', rfl, ?_⟩
    · dsimp only
      rw [Function.update_self, entryTarget_user, htarget]
    · rw [if_pos huser, h.pd]
      rfl
  · exact ⟨_, _, (if_neg huser).symm, (if_neg huser).symm, h, htarget, hreach, rfl,
      by rw [if_neg huser, List.append_nil]⟩

/-- **`vmm_map_page`** does the same in the memory, with the same answer. -/
theorem PagedMemory.Implements.mapPage (h : m.Implements All s) (hops : ops.Lawful InUse)
    (hwf : s.WellFormed InUse) (hopen : s.OpenDirectory) {virt : U32} (phys flags : U32)
    (hreach : virt.PageAligned → phys.PageAligned → m.ReachesTable ops (pdIndex virt)) :
    ∃ m', InMemory.vmmMapPage ops virt phys flags m = some (m', (vmmMapPage ops virt phys flags s).2) ∧
      m'.Implements All (vmmMapPage ops virt phys flags s).1 ∧
      m'.events = m.events ++ vmmMapPageEvents ops virt phys flags s := by
  unfold InMemory.vmmMapPage vmmMapPage vmmMapPageEvents
  by_cases halign : ¬ virt.PageAligned ∨ ¬ phys.PageAligned
  · -- the call is rejected
    simp only [if_pos halign]
    exact ⟨m, rfl, h, (List.append_nil _).symm⟩
  simp only [if_neg halign]
  have hreach' : m.ReachesTable ops (pdIndex virt) := by
    push Not at halign
    exact hreach halign.1 halign.2
  obtain ⟨m₁, hens, himpl₁, hevents₁, -, htable⟩ := h.ensurePageTable hops hwf hopen hreach'
  obtain ⟨s₁, pt, hres⟩ : ∃ s₁ pt, vmmEnsurePageTable ops (pdIndex virt) s = (s₁, pt) := ⟨_, _, rfl⟩
  have hready₁ : s₁.ready = s.ready := by
    obtain ⟨s', pt', hres', -, hext, -⟩ := vmmEnsurePageTable_spec hops hwf (pdIndex virt)
    obtain ⟨rfl, -⟩ := Prod.mk.inj (hres'.symm.trans hres)
    exact hext.ready
  have hopen₁ := vmmEnsurePageTable_directory (fun _ hf => openEntry_table hf) hopen hops (pdIndex virt)
  rw [hres] at hens himpl₁ htable hopen₁ ⊢
  dsimp only at hens himpl₁ htable hopen₁ ⊢
  rw [hens, Option.bind_some]
  by_cases hnull : pt = 0#32
  · simp only [if_pos hnull]
    exact ⟨m₁, rfl, himpl₁, hevents₁.trans (by rw [List.append_nil])⟩
  simp only [if_neg hnull]
  obtain ⟨f, rfl, hf, htarget, hreach₁⟩ := htable hnull
  -- the directory entry may get the user bit before the entry is written
  obtain ⟨m₂, s₂, hm₂, hs₂, himpl₂, htarget₂, hreach₂, hready₂, hevents₂⟩ :=
    himpl₁.orUser hopen₁ htarget hreach₁ flags
  rw [← hm₂, ← hs₂]
  obtain ⟨m', hstore, himpl', hevents'⟩ := himpl₂.writeEntry hf htarget₂ hreach₂
    (entryFrame phys ||| (flags &&& 0xFFF#32))
  refine ⟨m', ?_, himpl', ?_⟩
  · obtain ⟨m₃, hm₃, hinv⟩ := Option.map_eq_some_iff.mp hstore
    rw [hm₃, ← hinv]
    rfl
  · rw [hevents', hevents₂, hevents₁, hready₂, hready₁, List.append_assoc, List.append_assoc]
    rfl

/-- **`vmm_unmap_page`** does the same in the memory. -/
theorem PagedMemory.Implements.unmapPage (h : m.Implements All s) {virt : U32}
    (hreach : virt.PageAligned → IsPresent (m.pd (pdIndex virt)) →
      m.Reaches (entryFrame (m.pd (pdIndex virt)))) :
    ∃ m', InMemory.vmmUnmapPage virt m = some m' ∧ m'.Implements All (vmmUnmapPage virt s) ∧
      m'.events = m.events ++ vmmUnmapPageEvents virt s := by
  unfold InMemory.vmmUnmapPage vmmUnmapPage vmmUnmapPageEvents
  by_cases hvirt : virt.PageAligned
  · simp only [if_neg (not_not.mpr hvirt)]
    rw [h.pd] at hreach ⊢
    by_cases hpde : IsPresent (s.pd (pdIndex virt))
    · simp only [if_neg (not_not.mpr hpde)]
      exact h.writeEntry (entryFrame_aligned _) (if_pos hpde) (hreach hvirt hpde) 0#32
    · simp only [if_pos hpde]
      exact ⟨m, rfl, h, (List.append_nil _).symm⟩
  · simp only [if_pos hvirt]
    exact ⟨m, rfl, h, (List.append_nil _).symm⟩

/-- The entry that `vmm_get_physical` and `vmm_is_mapped` read. -/
theorem PagedMemory.Implements.loadEntry (h : m.Implements All s) {virt : U32}
    (hpde : IsPresent (s.pd (pdIndex virt))) (hreach : m.Reaches (entryFrame (s.pd (pdIndex virt)))) :
    m.load (physToVirt (entryFrame (s.pd (pdIndex virt))) + 4#32 * ptIndex virt) =
      some (s.table (physToVirt (entryFrame (s.pd (pdIndex virt)))) (ptIndex virt)) := by
  have halign := entryFrame_aligned (s.pd (pdIndex virt))
  have hwords := h.words (pageOf (entryFrame (s.pd (pdIndex virt)))) ((ptIndex virt).setWidth 10)
    (.inr ⟨_, by rw [pageAddr_pageOf halign]; exact if_pos hpde⟩)
  have hindex : ((ptIndex virt).setWidth 10).setWidth 32 = ptIndex virt := by
    rw [ptIndex_eq]
    simp
  rw [hreach.load halign (ptIndex_lt virt), hwords, pageAddr_pageOf halign, hindex]

/-- **`vmm_get_physical`** answers the same. -/
theorem PagedMemory.Implements.getPhysical (h : m.Implements All s) {virt : U32}
    (hreach : IsPresent (m.pd (pdIndex virt)) → m.Reaches (entryFrame (m.pd (pdIndex virt)))) :
    InMemory.vmmGetPhysical virt m = some (vmmGetPhysical virt s) := by
  unfold InMemory.vmmGetPhysical vmmGetPhysical
  rw [h.ready, h.pd] at *
  split
  · rfl
  split
  · rfl
  dsimp only
  split
  · rfl
  · rename_i hpde
    rw [h.loadEntry (not_not.mp hpde) (hreach (not_not.mp hpde))]
    rfl

/-- **`vmm_is_mapped`** answers the same. -/
theorem PagedMemory.Implements.isMapped (h : m.Implements All s) {virt : U32}
    (hreach : IsPresent (m.pd (pdIndex virt)) → m.Reaches (entryFrame (m.pd (pdIndex virt)))) :
    InMemory.vmmIsMapped virt m = some (vmmIsMapped virt s) := by
  unfold InMemory.vmmIsMapped vmmIsMapped
  rw [h.ready, h.pd] at *
  split
  · rfl
  split
  · rfl
  dsimp only
  split
  · rfl
  · rename_i hpde
    rw [h.loadEntry (not_not.mp hpde) (hreach (not_not.mp hpde))]
    rfl

/-- The loop of `vmm_unmap_identity`, with what it writes. -/
theorem PagedMemory.Implements.unmapIdentityLoop (h : m.Implements All s) (n : ℕ) (hn : n ≤ 1024) :
    (InMemory.unmapIdentityLoop n m).Implements All
        { s with pd := Vmm.unmapIdentityLoop s.pd n } ∧
      (InMemory.unmapIdentityLoop n m).events = m.events ++
        (((List.range n).map (BitVec.ofNat 10)).filter
          fun i => IsPresent (s.pd (i.setWidth 32))).map fun i => .storeDir i 0#32 := by
  induction n with
  | zero => exact ⟨h, (List.append_nil _).symm⟩
  | succ n ih =>
    obtain ⟨himpl, hevents⟩ := ih (by omega)
    have hindex : (BitVec.ofNat 10 n).setWidth 32 = BitVec.ofNat 32 n := by
      apply BitVec.eq_of_toNat_eq
      rw [BitVec.toNat_setWidth, BitVec.toNat_ofNat, BitVec.toNat_ofNat]
      omega
    have hindex' : (BitVec.ofNat 32 n).setWidth 10 = BitVec.ofNat 10 n := by
      apply BitVec.eq_of_toNat_eq
      rw [BitVec.toNat_setWidth, BitVec.toNat_ofNat, BitVec.toNat_ofNat]
      omega
    -- the entry has not been touched by the rounds before
    have hsame : Vmm.unmapIdentityLoop s.pd n (BitVec.ofNat 32 n) = s.pd (BitVec.ofNat 32 n) := by
      rw [unmapIdentityLoop_eq _ (by omega), if_neg]
      rintro ⟨hlt, -⟩
      rw [BitVec.toNat_ofNat] at hlt
      omega
    have hpd := congrFun himpl.pd (BitVec.ofNat 32 n)
    dsimp only at hpd
    rw [hsame] at hpd
    unfold InMemory.unmapIdentityLoop Vmm.unmapIdentityLoop
    rw [List.range_succ, List.map_append, List.filter_append, List.map_append, ← List.append_assoc,
      ← hevents]
    simp only [List.map_cons, List.map_nil, hpd, hsame]
    by_cases hpresent : IsPresent (s.pd (BitVec.ofNat 32 n))
    · simp only [if_pos hpresent]
      refine ⟨himpl.storePde (.inr entryTarget_zero) rfl, ?_⟩
      rw [List.filter_cons_of_pos (by simpa [hindex] using hpresent)]
      unfold PagedMemory.storePde
      rw [hindex']
      rfl
    · simp only [if_neg hpresent]
      refine ⟨himpl, ?_⟩
      rw [List.filter_cons_of_neg (by simpa [hindex] using hpresent)]
      exact (List.append_nil _).symm

/-- **`vmm_unmap_identity`** does the same in the memory. -/
theorem PagedMemory.Implements.unmapIdentity (h : m.Implements All s) :
    (InMemory.vmmUnmapIdentity m).Implements All (vmmUnmapIdentity s) ∧
      (InMemory.vmmUnmapIdentity m).events = m.events ++ vmmUnmapIdentityEvents s := by
  have hindex : (pdIndex kernelVirtOffset).toNat = 768 := by decide
  have hn : (pdIndex kernelVirtOffset).toNat ≤ 1024 := hindex.trans_le (by decide)
  unfold InMemory.vmmUnmapIdentity vmmUnmapIdentity vmmUnmapIdentityEvents
  generalize (pdIndex kernelVirtOffset).toNat = n at hn
  rw [h.ready]
  by_cases hready : s.ready
  · simp only [if_neg (not_not.mpr hready)]
    obtain ⟨himpl, hevents⟩ := h.unmapIdentityLoop n hn
    refine ⟨himpl.record _, ?_⟩
    rw [hevents, List.append_assoc]
  · simp only [if_pos hready]
    exact ⟨h, (List.append_nil _).symm⟩

end Implements

end Microkernel.Vmm
