import Microkernel.Vmm.FlatMap

/-! # Access from ring 3

The processor lets ring 3 into a page when both levels of the page tables are present and have the user
bit. `vmm_map_page` sets the bit of a directory entry for one page of the 4 MiB that share it and never
clears it, so the entries of the other pages must keep them closed: an entry with the user bit lies
under a directory entry with the user bit, and the directory entry alone opens nothing.

* **`UserCovered`** — that invariant; under it the user entries are what ring 3 can access.
* **`vmm_ring3_iff`** — over all calls, the pages that ring 3 can access are those whose last mapping had
  the user bit.
-/

namespace Microkernel.Vmm

open Function (update)

section Entries
variable {σ : Type*} {ops : PmmOps σ} {InUse : σ → U32 → Prop} {s s' : VmmState σ}

/-- A page is accessible from ring 3: both entries are present and have the user bit. -/
def VmmState.Ring3 (s : VmmState σ) (v : U32) : Prop :=
  let pde := s.pd (pdIndex v)
  let pte := s.table (physToVirt (entryFrame pde)) (ptIndex v)
  (IsPresent pde ∧ IsUser pde) ∧ IsPresent pte ∧ IsUser pte

/-- The entry of a page has the user bit. -/
def VmmState.UserEntry (s : VmmState σ) (v : U32) : Prop := ∃ e, s.entry v = some e ∧ IsUser e

/-- Every entry with the user bit lies under a directory entry with the user bit. -/
def VmmState.UserCovered (s : VmmState σ) : Prop :=
  ∀ v, v.PageAligned → s.UserEntry v → IsUser (s.pd (pdIndex v))

/-- The entry of a page under a present directory entry. -/
theorem VmmState.entry_of_present {v : U32} (h : IsPresent (s.pd (pdIndex v))) :
    s.entry v =
      presentEntry (s.table (physToVirt (entryFrame (s.pd (pdIndex v)))) (ptIndex v)) := by
  apply TwoLevelMap.lookup_of_some
  apply VmmState.dir_of_target
  exact if_pos h

/-- A page with an entry has a directory entry. -/
theorem VmmState.present_of_entry {v e : U32} (h : s.entry v = some e) :
    IsPresent (s.pd (pdIndex v)) := by
  by_contra hnot
  have hnone : s.entry v = none :=
    TwoLevelMap.lookup_of_none (VmmState.dir_of_not_present hnot) _
  rw [hnone] at h
  exact absurd h (by simp)

/-- A present entry is found as it is. -/
theorem presentEntry_eq_some {e f : U32} : presentEntry e = some f ↔ IsPresent e ∧ e = f := by
  unfold presentEntry
  split
  · simp [*]
  · simp [*]

/-- **When the user entries are covered, they are what ring 3 can access.** -/
theorem VmmState.UserCovered.ring3_iff (h : s.UserCovered) {v : U32} (hv : v.PageAligned) :
    s.Ring3 v ↔ s.UserEntry v := by
  constructor
  · rintro ⟨⟨hpde, -⟩, hpte, hu⟩
    refine ⟨_, ?_, hu⟩
    rw [VmmState.entry_of_present hpde]
    exact presentEntry_eq_some.mpr ⟨hpte, rfl⟩
  · intro huser
    have hcovered := h v hv huser
    obtain ⟨e, he, hu⟩ := huser
    have hpde := VmmState.present_of_entry he
    rw [VmmState.entry_of_present hpde] at he
    obtain ⟨hpte, rfl⟩ := presentEntry_eq_some.mp he
    exact ⟨⟨hpde, hcovered⟩, hpte, hu⟩

/-- The entry for an aligned frame has exactly the flags it is given. -/
theorem mapEntry_flags {phys : U32} (hphys : phys.PageAligned) (flags : U32) :
    (IsPresent (mapEntry phys flags) ↔ IsPresent flags) ∧
      (IsUser (mapEntry phys flags) ↔ IsUser flags) := by
  obtain ⟨hframe, hpresent⟩ := entryFrame_of_aligned hphys
  unfold mapEntry
  rw [hframe]
  constructor
  · rw [isPresent_or, isPresent_flags]
    exact or_iff_right hpresent
  · -- the third bit of an aligned address is clear
    have hzero : ¬ IsUser phys := by
      have hlow : phys.getLsbD 2 = (phys &&& 0xFFF#32).getLsbD 2 := by
        rw [BitVec.getLsbD_and]
        simp
      rw [isUser_iff, hlow, show phys &&& 0xFFF#32 = 0#32 from hphys]
      simp
    have hlow : IsUser (flags &&& 0xFFF#32) ↔ IsUser flags := by
      rw [isUser_iff, isUser_iff, BitVec.getLsbD_and]
      simp
    rw [isUser_or, hlow]
    exact or_iff_right hzero

/-- When an operation extends the directory and leaves the user entries of other pages alone, they stay
covered. -/
theorem VmmState.UserCovered.mono (h : s.UserCovered) (hext : s.Extends s' InUse) {v : U32}
    (hv : v.PageAligned) (hsame : s'.entry v = s.entry v) (huser : s'.UserEntry v) :
    IsUser (s'.pd (pdIndex v)) := by
  obtain ⟨e, he, hu⟩ := huser
  rw [hsame] at he
  exact hext.user _ (VmmState.present_of_entry he) (h v hv ⟨e, he, hu⟩)

/-- **Mapping a page** opens or closes this page only. -/
theorem vmmMapPage_user (hops : ops.Lawful InUse) (h : s.WellFormed InUse) (hc : s.UserCovered)
    (virt phys flags : U32) :
    ∃ s' r, vmmMapPage ops virt phys flags s = (s', r) ∧ s'.WellFormed InUse ∧
      s'.ready = s.ready ∧ s'.UserCovered ∧ ∀ v, v.PageAligned → (s'.UserEntry v ↔
        if r = 0 ∧ v = virt then IsPresent flags ∧ IsUser flags else s.UserEntry v) := by
  obtain ⟨s', r, hres, hwf, hext, hcase⟩ := vmmMapPage_entry hops h virt phys flags
  refine ⟨s', r, hres, hwf, hext.ready, ?_⟩
  -- a failed call may leave a new empty table, but changes no entry
  rcases hcase with ⟨rfl, hentry⟩ | ⟨rfl, -, hphys, huser, hentry⟩
  · refine ⟨fun v hv => hc.mono hext hv (hentry v), fun v _ => ?_⟩
    rw [if_neg fun hand => absurd hand.1 (by decide)]
    unfold VmmState.UserEntry
    rw [hentry]
  · obtain ⟨hpresent, hflags⟩ := mapEntry_flags hphys flags
    have hself : ∀ v, v.PageAligned → v = virt →
        (s'.UserEntry v ↔ IsPresent flags ∧ IsUser flags) := by
      intro v hv hveq
      unfold VmmState.UserEntry
      rw [hentry v hv, if_pos hveq, ← hpresent, ← hflags]
      constructor
      · rintro ⟨e, he, hu⟩
        obtain ⟨hp, rfl⟩ := presentEntry_eq_some.mp he
        exact ⟨hp, hu⟩
      · rintro ⟨hp, hu⟩
        exact ⟨_, presentEntry_eq_some.mpr ⟨hp, rfl⟩, hu⟩
    constructor
    · intro v hv hentry'
      by_cases hveq : v = virt
      · have hu := ((hself v hv hveq).mp hentry').2
        rw [hveq]
        exact huser hu
      · refine hc.mono hext hv ?_ hentry'
        rw [hentry v hv, if_neg hveq]
    · intro v hv
      by_cases hveq : v = virt
      · rw [if_pos ⟨rfl, hveq⟩]
        exact hself v hv hveq
      · rw [if_neg fun hand => hveq hand.2]
        unfold VmmState.UserEntry
        rw [hentry v hv, if_neg hveq]

end Entries

/-! ### Runs -/

/-- For each page, the flags of its last mapping that succeeded since it was last unmapped. -/
abbrev MapFlags := U32 → Option U32

/-- What a call and its answer mean for the last mappings; until `vmm_init` has succeeded,
`vmm_unmap_identity` does nothing. -/
def MapFlags.step (ready : Bool) (m : MapFlags) : VmmCall × Int → MapFlags
  | (.map virt _ flags _, answer) => if answer = 0 then update m virt (some flags) else m
  | (.unmap virt, _) => update m virt none
  | (.unmapIdentity, _) => fun v => if ready ∧ v < kernelVirtOffset then none else m v

/-- The last mappings after calls that were answered as given. -/
def MapFlags.run (ready : Bool) (calls : List VmmCall) (answers : List Int) : MapFlags :=
  (calls.zip answers).foldl (MapFlags.step ready) fun _ => none

/-- The page was last mapped present and for the user. -/
def MapFlags.Open (m : MapFlags) (v : U32) : Prop :=
  ∃ flags, m v = some flags ∧ IsPresent flags ∧ IsUser flags

namespace MapFlags

variable (m : MapFlags) (ready : Bool) (v : U32)

/-- A mapping that succeeded opens or closes its page. -/
theorem open_map (virt phys flags : U32) (source : FrameSource) (r : Int) :
    (m.step ready (.map virt phys flags source, r)).Open v ↔
      if r = 0 ∧ v = virt then IsPresent flags ∧ IsUser flags else m.Open v := by
  show MapFlags.Open (if r = 0 then update m virt (some flags) else m) v ↔ _
  unfold Open
  by_cases hr : r = 0
  · by_cases hveq : v = virt
    · rw [if_pos hr, if_pos ⟨hr, hveq⟩, hveq, Function.update_self]
      simp
    · rw [if_pos hr, if_neg fun hand => hveq hand.2, Function.update_of_ne hveq]
  · rw [if_neg hr, if_neg fun hand => hr hand.1]

/-- An unmapping closes its page. -/
theorem open_unmap (virt : U32) (r : Int) :
    (m.step ready (.unmap virt, r)).Open v ↔ v ≠ virt ∧ m.Open v := by
  show MapFlags.Open (update m virt none) v ↔ _
  unfold Open
  by_cases hveq : v = virt
  · simp [hveq]
  · simp [hveq]

/-- `vmm_unmap_identity` closes the pages below the high half. -/
theorem open_unmapIdentity (r : Int) :
    (m.step ready (.unmapIdentity, r)).Open v ↔
      ¬ (ready ∧ v < kernelVirtOffset) ∧ m.Open v := by
  show (∃ flags, (if ready ∧ v < kernelVirtOffset then none else m v) = some flags ∧ _) ↔ _
  unfold Open
  split
  · simp [*]
  · simp [*]

end MapFlags

/-- The page tables grant what the last mappings asked for. -/
structure VmmState.Grants (s : VmmState Frames) (m : MapFlags) : Prop where
  wellFormed : s.WellFormed FramesInUse
  covered : s.UserCovered
  userEntry : ∀ v, v.PageAligned → (s.UserEntry v ↔ m.Open v)

/-- One call grants what it asks for. -/
theorem vmmCall_grants {s : VmmState Frames} {m : MapFlags} (h : s.Grants m) (call : VmmCall) :
    ∃ s' answer, vmmCall s call = (s', answer) ∧ s'.ready = s.ready ∧
      s'.Grants (m.step s.ready (call, answer)) := by
  cases call with
  | map virt phys flags source =>
    obtain ⟨s', r, hres, hwf, hready, hcovered, huser⟩ :=
      vmmMapPage_user (s := { s with pmm := { s.pmm with source := source } }) framesOps_lawful
        ⟨h.wellFormed.inUse, h.wellFormed.injective⟩ h.covered virt phys flags
    refine ⟨s', r, hres, hready, hwf, hcovered, fun v hv => ?_⟩
    rw [huser v hv, MapFlags.open_map]
    split
    · rfl
    · exact h.userEntry v hv
  | unmap virt =>
    obtain ⟨hwf, hext, -, hentry⟩ := vmmUnmapPage_entry h.wellFormed virt
    have huser : ∀ v, v.PageAligned → ((vmmUnmapPage virt s).UserEntry v ↔
        v ≠ virt ∧ s.UserEntry v) := by
      intro v hv
      unfold VmmState.UserEntry
      rw [hentry v hv]
      split
      · simp [*]
      · simp [*]
    refine ⟨_, 0, rfl, hext.ready, hwf, fun v hv hu => ?_, fun v hv => ?_⟩
    · obtain ⟨hne, -⟩ := (huser v hv).mp hu
      refine h.covered.mono hext hv ?_ hu
      rw [hentry v hv, if_neg hne]
    · rw [huser v hv, h.userEntry v hv, MapFlags.open_unmap]
  | unmapIdentity =>
    obtain ⟨hwf, hentry⟩ := vmmUnmapIdentity_entry h.wellFormed
    refine ⟨_, 0, rfl, (vmmUnmapIdentity_rest s).2.1, ?_⟩
    by_cases hready : s.ready
    · have huser : ∀ v, (vmmUnmapIdentity s).UserEntry v ↔
          ¬ v < kernelVirtOffset ∧ s.UserEntry v := by
        intro v
        unfold VmmState.UserEntry
        rw [hentry hready]
        split
        · simp [*]
        · simp [*]
      -- the high half keeps its tables, and with them the covered pages
      refine ⟨hwf, fun v hv hu => ?_, fun v hv => ?_⟩
      · obtain ⟨-, hu'⟩ := (huser v).mp hu
        obtain ⟨e, he, -⟩ := hu
        obtain ⟨f, hf⟩ : ∃ f, entryTarget ((vmmUnmapIdentity s).pd (pdIndex v)) = some f :=
          ⟨_, if_pos (VmmState.present_of_entry he)⟩
        rw [vmmUnmapIdentity_target hf]
        exact h.covered v hv hu'
      · rw [huser, h.userEntry v hv, MapFlags.open_unmapIdentity]
        simp only [hready, true_and]
    · have heq : vmmUnmapIdentity s = s := by
        unfold vmmUnmapIdentity
        exact if_pos hready
      rw [heq]
      refine ⟨h.wellFormed, h.covered, fun v hv => ?_⟩
      rw [h.userEntry v hv, MapFlags.open_unmapIdentity]
      exact (and_iff_right fun hc => hready hc.1).symm

/-- `vmm_init` opens no page: its mappings do not have the user bit. -/
theorem vmmInitLoop_closed {mapEnd : U32} (n : ℕ) {addr : U32} {s s' : VmmState Frames} {ok : Bool}
    (haddr : addr.PageAligned) (h : s.Grants fun _ => none)
    (hres : vmmInitLoop framesOps mapEnd n addr s = some (s', ok)) : s'.Grants fun _ => none := by
  refine vmmInitLoop_invariant (I := fun t => t.Grants fun _ => none)
    (fun s phys virt h _ _ _ => ?_) n haddr h hres
  obtain ⟨t, r, hres, hwf, -, hcovered, huser⟩ := vmmMapPage_user framesOps_lawful h.wellFormed
    h.covered virt phys (ptePresent ||| pteWritable)
  rw [hres]
  refine ⟨hwf, hcovered, fun v hv => ?_⟩
  rw [huser v hv, h.userEntry v hv]
  have hflags : ¬ IsUser (ptePresent ||| pteWritable) := by decide
  have hnone : ¬ MapFlags.Open (fun _ => none) v := by
    rintro ⟨flags, hf, -⟩
    exact absurd hf (by simp)
  simp [hflags, hnone]

/-- **User mappings open no kernel page.** Whatever the kernel image, the memory and the sources of
frames, after `vmm_init` and any calls ring 3 can access exactly the pages whose last mapping since
they were last unmapped was present and for the user, and mapping one page changes this for no other
page. -/
theorem vmm_ring3_iff (kernelEnd : U32) (table : U32 → U32 → U32) (p : Frames)
    (calls : List VmmCall) :
    ∃ s₀ s answers, vmmInit framesOps kernelEnd (vmmStatic table p) = some s₀ ∧
      (vmmMachine s₀).run calls = some (s, answers) ∧
      (∀ v, v.PageAligned → (s.Ring3 v ↔ (MapFlags.run s₀.ready calls answers).Open v)) ∧
      ∀ virt phys flags source v, v.PageAligned → v ≠ virt →
        ((vmmCall s (.map virt phys flags source)).1.Ring3 v ↔ s.Ring3 v) := by
  obtain ⟨s₀, hinit, -, -⟩ := vmmInit_spec framesOps_lawful kernelEnd table p
  have hclear : (vmmCleared table p).Grants fun _ => none := by
    obtain ⟨hwf, hentry⟩ := vmmCleared_spec FramesInUse table p
    have huser : ∀ v, ¬ (vmmCleared table p).UserEntry v := by
      rintro v ⟨e, he, -⟩
      rw [hentry] at he
      exact absurd he (by simp)
    refine ⟨hwf, fun v _ hu => absurd hu (huser v), fun v _ => ?_⟩
    rw [iff_false_intro (huser v), false_iff]
    rintro ⟨flags, hf, -⟩
    exact absurd hf (by simp)
  have h₀ : s₀.Grants fun _ => none := by
    obtain ⟨s₁, ok, hloop, hcase⟩ := vmmInit_cases hinit
    have h₁ := vmmInitLoop_closed _ (by decide) hclear hloop
    rcases hcase with ⟨-, rfl⟩ | ⟨-, rfl⟩
    · exact h₁
    · exact ⟨⟨h₁.wellFormed.inUse, h₁.wellFormed.injective⟩, h₁.covered, h₁.userEntry⟩
  obtain ⟨s, answers, hrun, hready, h⟩ := Machine.runFrom_trace (M := vmmMachine s₀)
    (R := fun s m => s.ready = s₀.ready ∧ s.Grants m) (MapFlags.step s₀.ready)
    (fun s m call ⟨hready, h⟩ => by
      obtain ⟨s', answer, hres, hready', h'⟩ := vmmCall_grants h call
      exact ⟨s', answer, congrArg some hres, hready'.trans hready, hready ▸ h'⟩)
    calls s₀ (fun _ => none) ⟨rfl, h₀⟩
  refine ⟨s₀, s, answers, hinit, hrun, fun v hv => ?_, fun virt phys flags source v hv hne => ?_⟩
  · rw [h.covered.ring3_iff hv, h.userEntry v hv]
    rfl
  · obtain ⟨s', answer, hres, -, h'⟩ := vmmCall_grants h (.map virt phys flags source)
    rw [hres, h'.covered.ring3_iff hv, h.covered.ring3_iff hv, h'.userEntry v hv, h.userEntry v hv]
    rw [MapFlags.open_map, if_neg fun hand => hne hand.2]

end Microkernel.Vmm
