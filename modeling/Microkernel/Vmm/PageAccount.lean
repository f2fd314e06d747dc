import Microkernel.Vmm.FrameAccount
import Mathlib.Order.Interval.Finset.Nat

/-! # The account of `vmm_alloc_pages` and `vmm_free_pages`

What the loops do to the set of pages that were mapped since: the loop of `vmm_alloc_pages` adds a prefix
of its range, the rollback takes the whole range away whatever is left of it, and the loop of
`vmm_free_pages` gives each frame of its range back once.

* **`mapFreshPages_account`, `rollbackPages_account`** — the loop that maps and the one that takes back
  after a failure.
* **`freeMappedPages_account`, `freeIdlePages_account`** — the loop of `vmm_free_pages`, over pages that
  are mapped and over pages that are not.
* **`VmmState.recorded`** — a record of the frames that are given back, which nothing reads.
-/

namespace Microkernel.Vmm

/-! ### The pages of a loop -/

/-- The addresses of the rounds `j`, …, `j + n - 1` of a loop over pages. -/
def pagesFrom (start : U32) (j n : ℕ) : Finset U32 :=
  (Finset.Ico j (j + n)).image fun k => start + BitVec.ofNat 32 k * vmmPageSize

section Pages
variable {start v : U32} {j n : ℕ}

/-- The pages from one index up to another, computed by the machine. -/
theorem mem_pagesFrom :
    v ∈ pagesFrom start j n ↔ ∃ k, j ≤ k ∧ k < j + n ∧ v = start + BitVec.ofNat 32 k * vmmPageSize := by
  simp only [pagesFrom, Finset.mem_image, Finset.mem_Ico]
  constructor
  · rintro ⟨k, ⟨hj, hn⟩, rfl⟩
    exact ⟨k, hj, hn, rfl⟩
  · rintro ⟨k, hj, hn, rfl⟩
    exact ⟨k, ⟨hj, hn⟩, rfl⟩

@[simp] theorem pagesFrom_zero : pagesFrom start j 0 = ∅ := by
  simp [pagesFrom]

/-- The first round and the others. -/
theorem pagesFrom_succ : pagesFrom start j (n + 1) =
    insert (start + BitVec.ofNat 32 j * vmmPageSize) (pagesFrom start (j + 1) n) := by
  ext v
  rw [Finset.mem_insert, mem_pagesFrom, mem_pagesFrom]
  constructor
  · rintro ⟨k, hj, hn, rfl⟩
    rcases Nat.eq_or_lt_of_le hj with rfl | hlt
    exacts [.inl rfl, .inr ⟨k, hlt, by omega, rfl⟩]
  · rintro (rfl | ⟨k, hj, hn, rfl⟩)
    exacts [⟨j, le_rfl, by omega, rfl⟩, ⟨k, by omega, by omega, rfl⟩]

/-- The address of a round, when the range does not wrap around. -/
theorem round_toNat {k : ℕ} (hk : start.toNat + k * 4096 < 2 ^ 32) :
    (start + BitVec.ofNat 32 k * vmmPageSize).toNat = start.toNat + k * 4096 := by
  rw [BitVec.toNat_add, BitVec.toNat_mul, BitVec.toNat_ofNat, show vmmPageSize.toNat = 4096 from rfl]
  omega

/-- No address comes twice. -/
theorem round_notMem (hend : start.toNat + (j + (n + 1)) * 4096 ≤ 2 ^ 32) :
    start + BitVec.ofNat 32 j * vmmPageSize ∉ pagesFrom start (j + 1) n := by
  intro hmem
  obtain ⟨k, hj, hn, heq⟩ := mem_pagesFrom.mp hmem
  have hnat := congrArg BitVec.toNat heq
  rw [round_toNat (by omega), round_toNat (by omega)] at hnat
  omega

/-- Below the end of the address space they are as many as the indices. -/
theorem card_pagesFrom (hend : start.toNat + (j + n) * 4096 ≤ 2 ^ 32) :
    (pagesFrom start j n).card = n := by
  induction n generalizing j with
  | zero => rw [pagesFrom_zero, Finset.card_empty]
  | succ n ih =>
    rw [pagesFrom_succ, Finset.card_insert_of_notMem (round_notMem hend),
      ih (by rw [Nat.add_assoc, Nat.add_comm 1]; exact hend)]

/-- The whole pages of a range that does not wrap around. -/
theorem pagesOf_of_mem {count : U32} (hend : start.toNat + count.toNat * 4096 ≤ 2 ^ 32)
    (hv : v ∈ pagesFrom start 0 count.toNat) (halign : v.PageAligned) : PagesOf start count v := by
  obtain ⟨k, -, hk, rfl⟩ := mem_pagesFrom.mp hv
  refine ⟨halign, ?_, ?_⟩
  · rw [round_toNat (by omega)]
    omega
  · rw [round_toNat (by omega)]
    omega

/-- They are the pages of the range as numbers. -/
theorem mem_pagesFrom_iff {count : U32} (hstart : start.PageAligned)
    (hend : start.toNat + count.toNat * 4096 ≤ 2 ^ 32) :
    v ∈ pagesFrom start 0 count.toNat ↔ PagesOf start count v := by
  constructor
  · intro hv
    refine pagesOf_of_mem hend hv ?_
    obtain ⟨k, -, -, rfl⟩ := mem_pagesFrom.mp hv
    exact page_aligned hstart _
  · rintro ⟨halign, hge, hlt⟩
    rw [U32.pageAligned_iff] at halign hstart
    refine mem_pagesFrom.mpr ⟨(v.toNat - start.toNat) / 4096, Nat.zero_le _, by omega, ?_⟩
    apply BitVec.eq_of_toNat_eq
    rw [round_toNat (by omega)]
    omega

/-- The counter of the loop goes up by one. -/
theorem ofNat_succ_round : BitVec.ofNat 32 j + 1#32 = BitVec.ofNat 32 (j + 1) :=
  (BitVec.ofNat_add j 1).symm

end Pages

section Loops
variable {σ : Type*} {P : CountingPmm σ} {s₀ s : VmmState σ} {V : Finset U32} {start v : U32}

/-- **The loop of `vmm_alloc_pages`** puts pages of its range into the account, all of them when it
succeeds. -/
theorem mapFreshPages_account (n : ℕ) {j : ℕ} (h : VmmState.Account P s₀ s V)
    (hend : start.toNat + (j + n) * 4096 ≤ 2 ^ 32)
    (hpages : ∀ v ∈ pagesFrom start j n, v ∉ V ∧ (v.PageAligned → s₀.translate v = none)) :
    ∃ s' ok U, mapFreshPages P.toLawfulPmm start n (BitVec.ofNat 32 j) s = (s', ok) ∧
      s'.nextVaddr = s.nextVaddr ∧ U ⊆ pagesFrom start j n ∧ VmmState.Account P s₀ s' (V ∪ U) ∧
      (ok → U = pagesFrom start j n) := by
  induction n generalizing j s V with
  | zero => exact ⟨s, true, ∅, rfl, rfl, Finset.empty_subset _, by rwa [Finset.union_empty],
      fun _ => pagesFrom_zero.symm⟩
  | succ n ih =>
    rw [pagesFrom_succ] at hpages ⊢
    obtain ⟨hnew, hnone⟩ := hpages _ (Finset.mem_insert_self _ _)
    obtain ⟨s₁, phys, ok, hres, hnext, h₁⟩ := h.mapFresh hnone hnew
    unfold mapFreshPages
    simp only [hres]
    cases ok with
    | false => exact ⟨s₁, false, ∅, rfl, hnext, Finset.empty_subset _,
        by rwa [Finset.union_empty], fun hok => absurd hok (by decide)⟩
    | true =>
      obtain ⟨s', ok, U, hloop, hnext', hU, h', hall⟩ := ih (j := j + 1) h₁
        (by rw [Nat.add_assoc, Nat.add_comm 1]; exact hend) fun v hv => by
          obtain ⟨hvV, hv₀⟩ := hpages v (Finset.mem_insert_of_mem hv)
          refine ⟨fun hmem => ?_, hv₀⟩
          rcases Finset.mem_insert.mp hmem with rfl | hmem
          exacts [round_notMem hend hv, hvV hmem]
      refine ⟨s', ok, insert (start + BitVec.ofNat 32 j * vmmPageSize) U, ?_, hnext'.trans hnext,
        Finset.insert_subset_insert _ hU, ?_, fun hok => by rw [hall hok]⟩
      · rw [if_pos rfl, ofNat_succ_round, hloop]
      · rwa [Finset.union_insert, ← Finset.insert_union]

/-- One round of the rollback takes its page away, if it is there. -/
theorem VmmState.Account.rollbackPage (h : VmmState.Account P s₀ s V) (hready : s₀.ready)
    (h₀ : v.PageAligned → s₀.translate v = none) :
    VmmState.Account P s₀ (rollbackPage P.toLawfulPmm v s) (V.erase v) ∧
      (Vmm.rollbackPage P.toLawfulPmm v s).nextVaddr = s.nextVaddr := by
  have hready' : s.ready = true := h.ready.trans hready
  unfold Vmm.rollbackPage
  rw [vmmGetPhysical_eq]
  by_cases hv : v.PageAligned
  · rw [if_pos ⟨hready', hv⟩]
    cases hf : s.translate v with
    | none =>
      -- the page was not reached
      have hnot : v ∉ V := by
        intro hmem
        obtain ⟨f, hf', -⟩ := h.frame v hmem
        rw [hf] at hf'
        exact absurd hf' (by simp)
      rw [Finset.erase_eq_of_notMem hnot]
      exact ⟨h, rfl⟩
    | some f =>
      obtain ⟨h', hnext, -⟩ := h.release (h.mem_of_translate hv (h₀ hv) hf) hf
      exact ⟨h', hnext⟩
  · have hnot : v ∉ V := fun hmem => hv (h.fresh v hmem).1
    rw [if_neg fun hc => hv hc.2, Finset.erase_eq_of_notMem hnot]
    exact ⟨h, rfl⟩

/-- **The rollback** takes the pages of the whole range away. -/
theorem rollbackPages_account (n : ℕ) {j : ℕ} (h : VmmState.Account P s₀ s V) (hready : s₀.ready)
    (hpages : ∀ v ∈ pagesFrom start j n, v.PageAligned → s₀.translate v = none) :
    VmmState.Account P s₀ (rollbackPages P.toLawfulPmm start n (BitVec.ofNat 32 j) s)
        (V \ pagesFrom start j n) ∧
      (rollbackPages P.toLawfulPmm start n (BitVec.ofNat 32 j) s).nextVaddr = s.nextVaddr := by
  induction n generalizing j s V with
  | zero =>
    rw [pagesFrom_zero, Finset.sdiff_empty]
    exact ⟨h, rfl⟩
  | succ n ih =>
    rw [pagesFrom_succ] at hpages ⊢
    obtain ⟨h₁, hnext⟩ := h.rollbackPage hready (hpages _ (Finset.mem_insert_self _ _))
    unfold rollbackPages
    rw [ofNat_succ_round, Finset.sdiff_insert, ← Finset.erase_sdiff_comm, ← hnext]
    exact ih h₁ fun v hv => hpages v (Finset.mem_insert_of_mem hv)

/-! ### The frames that a call gives back -/

/-- The allocator with the list of the frames that were taken back, the last one first. -/
def LawfulPmm.recording (Q : LawfulPmm σ) : LawfulPmm (σ × List U32) where
  allocPage p := ((Q.allocPage p.1).1, (Q.allocPage p.1).2, p.2)
  totalPages p := Q.totalPages p.1
  managedBase p := Q.managedBase p.1
  freePage g p := (Q.freePage g p.1, g :: p.2)
  InUse p f := Q.InUse p.1 f
  lawful := ⟨fun p f hf => Q.lawful.mono p.1 f hf, fun p hne => Q.lawful.fresh p.1 hne⟩
  free_mono p f g hf hg hne := Q.free_mono p.1 f g hf hg hne

/-- The state with such a list. -/
def VmmState.recorded (s : VmmState σ) (log : List U32) : VmmState (σ × List U32) :=
  ⟨s.pd, s.table, s.ready, s.nextVaddr, s.directMapEnd, s.pmm, log⟩

/-- Unmapping a page does not depend on the recorded frames. -/
theorem vmmUnmapPage_recorded (v : U32) (s : VmmState σ) (log : List U32) :
    vmmUnmapPage v (s.recorded log) = (vmmUnmapPage v s).recorded log := by
  unfold vmmUnmapPage
  split
  · rfl
  · dsimp only [VmmState.recorded]
    split <;> rfl

/-- **One round of `vmm_free_pages`** for a page of the account gives its frame back. -/
theorem VmmState.Account.freeMappedPage (h : VmmState.Account P s₀ s V) (hready : s₀.ready)
    (hv : v ∈ V) :
    ∃ f s', s.translate v = some f ∧ Vmm.freeMappedPage P.toLawfulPmm v s = s' ∧
      VmmState.Account P s₀ s' (V.erase v) ∧ s'.nextVaddr = s.nextVaddr ∧
      (∀ g, P.InUse s'.pmm g ↔ P.InUse s.pmm g ∧ g ≠ f) ∧
      (∀ w, w.PageAligned → s'.translate w = if w = v then none else s.translate w) ∧
      ∀ log, Vmm.freeMappedPage P.toLawfulPmm.recording v (s.recorded log) =
        s'.recorded (f :: log) := by
  obtain ⟨f, hf, -⟩ := h.frame v hv
  have hget : vmmGetPhysical v s = some f := by
    rw [vmmGetPhysical_eq, if_pos ⟨h.ready.trans hready, (h.fresh v hv).1⟩, hf]
  have hround : Vmm.freeMappedPage P.toLawfulPmm v s =
      vmmUnmapPage v { s with pmm := P.freePage f s.pmm } := by
    unfold Vmm.freeMappedPage
    rw [hget]
  obtain ⟨h', hnext, hinUse, htrans⟩ := h.release hv hf
  refine ⟨f, _, hf, hround, h', hnext, hinUse, htrans, fun log => ?_⟩
  have hget' : vmmGetPhysical v (s.recorded log) = some f := hget
  unfold Vmm.freeMappedPage
  rw [hget']
  exact vmmUnmapPage_recorded v { s with pmm := P.freePage f s.pmm } (f :: log)

/-- **The loop of `vmm_free_pages`** over pages of the account unmaps them and gives each of their frames
back once, and no other. -/
theorem freeMappedPages_account (n : ℕ) {j : ℕ} (h : VmmState.Account P s₀ s V) (hready : s₀.ready)
    (hend : start.toNat + (j + n) * 4096 ≤ 2 ^ 32) (hV : pagesFrom start j n ⊆ V) :
    ∃ s' frames, freeMappedPages P.toLawfulPmm start n (BitVec.ofNat 32 j) s = s' ∧
      VmmState.Account P s₀ s' (V \ pagesFrom start j n) ∧ s'.nextVaddr = s.nextVaddr ∧
      (∀ f, f ∈ frames ↔ ∃ v ∈ pagesFrom start j n, s.translate v = some f) ∧ frames.Nodup ∧
      (∀ f, P.InUse s'.pmm f ↔ P.InUse s.pmm f ∧ f ∉ frames) ∧
      (∀ w, w.PageAligned →
        s'.translate w = if w ∈ pagesFrom start j n then none else s.translate w) ∧
      ∀ log, freeMappedPages P.toLawfulPmm.recording start n (BitVec.ofNat 32 j) (s.recorded log) =
        s'.recorded (frames ++ log) := by
  induction n generalizing j s V with
  | zero =>
    simp only [pagesFrom_zero]
    exact ⟨s, [], rfl, by rwa [Finset.sdiff_empty], rfl, by simp, List.nodup_nil, by simp, by simp,
      fun log => rfl⟩
  | succ n ih =>
    have hnot := round_notMem hend
    simp only [pagesFrom_succ] at hV ⊢
    obtain ⟨v, hv⟩ : ∃ v, v = start + BitVec.ofNat 32 j * vmmPageSize := ⟨_, rfl⟩
    rw [← hv] at hV hnot ⊢
    have hmem : v ∈ V := hV (Finset.mem_insert_self _ _)
    obtain ⟨f, s₁, hf, hround, h₁, hnext₁, hinUse₁, htrans₁, hlog₁⟩ := h.freeMappedPage hready hmem
    have hrest : ∀ w ∈ pagesFrom start (j + 1) n, w ∈ V ∧ w ≠ v := by
      refine fun w hw => ⟨hV (Finset.mem_insert_of_mem hw), ?_⟩
      rintro rfl
      exact hnot hw
    obtain ⟨s', frames, hloop, h', hnext, hframes, hnodup, hinUse, htrans, hlog⟩ := ih (j := j + 1) h₁
      (by rw [Nat.add_assoc, Nat.add_comm 1]; exact hend)
      fun w hw => Finset.mem_erase.mpr ⟨(hrest w hw).2, (hrest w hw).1⟩
    -- the other pages still have their frames
    have hsame : ∀ w ∈ pagesFrom start (j + 1) n, s₁.translate w = s.translate w := fun w hw =>
      (htrans₁ w (h.fresh w (hrest w hw).1).1).trans (if_neg (hrest w hw).2)
    have hfirst : f ∉ frames := by
      intro hin
      obtain ⟨w, hw, hwf⟩ := (hframes f).mp hin
      rw [hsame w hw] at hwf
      exact (hrest w hw).2 (h.injective w (hrest w hw).1 v hmem (hwf.trans hf.symm))
    refine ⟨s', frames ++ [f], ?_, ?_, hnext.trans hnext₁, fun g => ?_, ?_, fun g => ?_, fun w hw => ?_,
      fun log => ?_⟩
    · unfold freeMappedPages
      rw [← hv, hround, ofNat_succ_round, hloop]
    · rw [Finset.sdiff_insert, ← Finset.erase_sdiff_comm]
      exact h'
    · rw [List.mem_append, List.mem_singleton, hframes g]
      constructor
      · rintro (⟨w, hw, hg⟩ | rfl)
        · rw [hsame w hw] at hg
          exact ⟨w, Finset.mem_insert_of_mem hw, hg⟩
        · exact ⟨v, Finset.mem_insert_self _ _, hf⟩
      · rintro ⟨w, hw, hg⟩
        rcases Finset.mem_insert.mp hw with rfl | hw
        · exact .inr (Option.some.inj (hg.symm.trans hf))
        · exact .inl ⟨w, hw, (hsame w hw).trans hg⟩
    · refine List.nodup_append.mpr ⟨hnodup, List.nodup_singleton f, fun a ha b hb => ?_⟩
      rw [List.mem_singleton] at hb
      rintro rfl
      exact hfirst (hb ▸ ha)
    · rw [hinUse g, hinUse₁ g, List.mem_append, List.mem_singleton, not_or, and_assoc,
        and_comm (a := g ≠ f)]
    · rw [htrans w hw, htrans₁ w hw]
      by_cases hwv : w = v
      · rw [if_pos hwv, ite_self, if_pos (by rw [hwv]; exact Finset.mem_insert_self _ _)]
      · rw [if_neg hwv]
        simp only [Finset.mem_insert, hwv, false_or]
    · unfold freeMappedPages
      rw [← hv, hlog₁, ofNat_succ_round, hlog, List.append_assoc, List.singleton_append]

/-- **A round of `vmm_free_pages`** for a page that is not mapped changes no account. -/
theorem VmmState.Account.freeIdlePage (h : VmmState.Account P s₀ s V) (hv : v ∉ V)
    (h₀ : v.PageAligned → s₀.translate v = none) :
    VmmState.Account P s₀ (Vmm.freeMappedPage P.toLawfulPmm v s) V := by
  have hnone : v.PageAligned → s.translate v = none := fun halign => (h.other v halign hv).trans (h₀ halign)
  have hget : vmmGetPhysical v s = none := by
    rw [vmmGetPhysical_eq]
    split
    · rename_i hc
      exact hnone hc.2
    · rfl
  have hpd : (vmmUnmapPage v s).pd = s.pd := by
    unfold vmmUnmapPage
    split
    · rfl
    · dsimp only
      split <;> rfl
  obtain ⟨hwf, hext, hpmm, -⟩ := vmmUnmapPage_entry h.wellFormed v
  obtain ⟨-, -, htrans⟩ := vmmUnmapPage_spec h.wellFormed v
  have hround : Vmm.freeMappedPage P.toLawfulPmm v s = vmmUnmapPage v s := by
    unfold Vmm.freeMappedPage
    rw [hget]
  rw [hround]
  generalize vmmUnmapPage v s = s' at hwf hext hpmm htrans hpd
  have hsame : ∀ w, w.PageAligned → s'.translate w = s.translate w := by
    intro w hw
    rw [htrans w hw]
    split
    · rename_i hwv
      subst hwv
      exact (hnone hw).symm
    · rfl
  have htargets : ∀ i, entryTarget (s'.pd i) = entryTarget (s.pd i) := fun i => by rw [hpd]
  have halign : ∀ w ∈ V, w.PageAligned := fun w hw => (h.fresh w hw).1
  refine ⟨hwf, hext.ready.trans h.ready, fun f => ?_, fun w hw hwV => (hsame w hw).trans (h.other w hw hwV),
    h.fresh, fun w hw => ?_, fun w hw x hx hwx => ?_, ?_⟩
  · rw [hpmm, VmmState.IsTable.congr htargets, h.inUse f]
    refine or_congr_right (or_congr_right (exists_congr fun w => and_congr_right fun hw => ?_))
    rw [hsame w (halign w hw)]
  · simp only [hsame w (halign w hw), VmmState.IsTable.congr htargets]
    exact h.frame w hw
  · rw [hsame w (halign w hw), hsame x (halign x hx)] at hwx
    exact h.injective w hw x hx hwx
  · rw [hpmm, VmmState.tableCount_congr htargets]
    exact h.count

/-- **The loop of `vmm_free_pages`** over pages that are not mapped. -/
theorem freeIdlePages_account (n : ℕ) {j : ℕ} (h : VmmState.Account P s₀ s V)
    (hpages : ∀ v ∈ pagesFrom start j n, v ∉ V ∧ (v.PageAligned → s₀.translate v = none)) :
    VmmState.Account P s₀ (freeMappedPages P.toLawfulPmm start n (BitVec.ofNat 32 j) s) V := by
  induction n generalizing j s with
  | zero => exact h
  | succ n ih =>
    rw [pagesFrom_succ] at hpages
    obtain ⟨hnew, hnone⟩ := hpages _ (Finset.mem_insert_self _ _)
    unfold freeMappedPages
    rw [ofNat_succ_round]
    exact ih (h.freeIdlePage hnew hnone) fun v hv => hpages v (Finset.mem_insert_of_mem hv)

/-! ### The two functions -/

/-- **`vmm_alloc_pages`** of pages that were not mapped either fails and leaves the account as it was, or
puts its range into the account. -/
theorem vmmAllocPages_account (h : VmmState.Account P s₀ s V) {count : U32}
    (hrej : ¬ s.Rejects count) (hcount : count.toNat * 4096 < 2 ^ 32)
    (hpages : ∀ v ∈ pagesFrom s.nextVaddr 0 count.toNat,
      v ∉ V ∧ (v.PageAligned → s₀.translate v = none)) :
    ∃ s' p, vmmAllocPages P.toLawfulPmm count s = (s', p) ∧
      s.nextVaddr.toNat + count.toNat * 4096 < 2 ^ 32 ∧
      s'.nextVaddr.toNat = s.nextVaddr.toNat + count.toNat * 4096 ∧
      (p = 0#32 ∧ VmmState.Account P s₀ s' V ∨
        p = s.nextVaddr ∧ p ≠ 0#32 ∧
          VmmState.Account P s₀ s' (V ∪ pagesFrom s.nextVaddr 0 count.toNat)) := by
  unfold VmmState.Rejects at hrej
  simp only [not_or, not_not] at hrej
  obtain ⟨hzero, hready, hne, htotal⟩ := hrej
  obtain ⟨start, hstart⟩ : ∃ start, start = s.nextVaddr := ⟨_, rfl⟩
  rw [← hstart] at hne htotal hpages ⊢
  have hbytes : (count * vmmPageSize).toNat = count.toNat * 4096 := by
    rw [BitVec.toNat_mul, show vmmPageSize.toNat = 4096 from rfl]
    omega
  have hend : start.toNat + count.toNat * 4096 < 2 ^ 32 := by
    have hle := BitVec.not_lt.mp htotal
    have hlt := start.isLt
    rw [BitVec.le_def, hbytes, BitVec.toNat_sub, BitVec.toNat_ofNat] at hle
    omega
  have hnat : (start + count * vmmPageSize).toNat = start.toNat + count.toNat * 4096 := by
    rw [BitVec.toNat_add, hbytes, Nat.mod_eq_of_lt hend]
  obtain ⟨s₁, hs₁⟩ : ∃ s₁ : VmmState σ,
      s₁ = { s with nextVaddr := start + count * vmmPageSize } := ⟨_, rfl⟩
  have hnext₁ : s₁.nextVaddr = start + count * vmmPageSize := by rw [hs₁]
  have h₁ : VmmState.Account P s₀ s₁ V :=
    h.congr (by rw [hs₁]) (by rw [hs₁]) (by rw [hs₁]) (by rw [hs₁])
  obtain ⟨s₂, ok, U, hloop, hnext₂, hU, h₂, hall⟩ := mapFreshPages_account count.toNat h₁
    (j := 0) (by rw [Nat.zero_add]; exact hend.le) hpages
  have hres : vmmAllocPages P.toLawfulPmm count s =
      if ok then (s₂, start)
      else (rollbackPages P.toLawfulPmm start count.toNat 0#32 s₂, 0#32) := by
    unfold vmmAllocPages
    rw [if_neg (by simp [hzero, hready, ← hstart, hne]), ← hstart]
    dsimp only
    rw [if_neg htotal, ← hs₁, show (0#32 : U32) = BitVec.ofNat 32 0 from rfl, hloop]
  rw [hres]
  cases ok with
  | true =>
    rw [hall rfl] at h₂
    exact ⟨s₂, start, rfl, hend, by rw [hnext₂, hnext₁, hnat], .inr ⟨rfl, hne, h₂⟩⟩
  | false =>
    obtain ⟨h₃, hnext₃⟩ := rollbackPages_account count.toNat h₂ (h.ready.symm.trans hready)
      fun v hv => (hpages v hv).2
    refine ⟨_, 0#32, rfl, hend, ?_, .inl ⟨rfl, ?_⟩⟩
    · rw [show (0#32 : U32) = BitVec.ofNat 32 0 from rfl, hnext₃, hnext₂, hnext₁, hnat]
    · -- nothing of the range is left, and it held nothing else
      have hV : (V ∪ U) \ pagesFrom start 0 count.toNat = V := by
        rw [Finset.union_sdiff_distrib, Finset.sdiff_eq_empty_iff_subset.mpr hU, Finset.union_empty,
          Finset.sdiff_eq_self_iff_disjoint, Finset.disjoint_left]
        exact fun v hv hmem => (hpages v hmem).1 hv
      rwa [hV] at h₃

end Loops

end Microkernel.Vmm
