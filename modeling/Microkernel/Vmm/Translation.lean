import Microkernel.Lib.TwoLevelMap
import Microkernel.Vmm.PageTable

/-! # Page tables as a map

The translation that the page tables define, as a two-level map, and the invariant that different
directory entries have different tables. What each function of the virtual memory manager does to the
translation.

* **`VmmState.entry`, `VmmState.translate`** — the entry and the frame of an address.
* **`WellFormed`** — the invariant.
* **`Extends`** — what mapping and unmapping have in common: the directory may get tables, and loses none.
* **`vmmMapPage_entry`, `vmmUnmapPage_entry`, `vmmUnmapIdentity_pd`** — the calls, each by the one entry
  that it changes.
-/

namespace Microkernel.Vmm

open Function (update)

/-! ### Entries -/

/-- Bit 0 of an entry. -/
theorem isPresent_iff (e : U32) : IsPresent e ↔ e.getLsbD 0 = true := by
  unfold IsPresent ptePresent
  rw [ne_eq, ← BitVec.toNat_inj, BitVec.toNat_and, ← BitVec.testBit_toNat]
  show ¬ e.toNat &&& 1 = 0 ↔ _
  rw [Nat.and_one_is_mod, Nat.testBit_zero]
  simp

/-- Combined entries are present when one of them is. -/
theorem isPresent_or (e f : U32) : IsPresent (e ||| f) ↔ IsPresent e ∨ IsPresent f := by
  simp only [isPresent_iff, BitVec.getLsbD_or, Bool.or_eq_true]

/-- The frames of combined entries are combined. -/
theorem entryFrame_or (e f : U32) : entryFrame (e ||| f) = entryFrame e ||| entryFrame f := by
  unfold entryFrame
  ext i
  simp
  grind

/-- An aligned address is its own frame, and has no flags. -/
theorem entryFrame_of_aligned {f : U32} (hf : f.PageAligned) : entryFrame f = f ∧ ¬ IsPresent f := by
  have hdvd := (U32.pageAligned_iff f).mp hf
  constructor
  · apply BitVec.eq_of_toNat_eq
    unfold entryFrame
    rw [show 0xFFF#32 = BitVec.ofNat 32 (2 ^ 12 - 1) from rfl, U32.toNat_and_not_low _ _ (by decide)]
    omega
  · rw [isPresent_iff, ← BitVec.testBit_toNat, Nat.testBit_zero]
    simp only [decide_eq_true_eq]
    omega

/-- The flags do not reach into the frame. -/
theorem entryFrame_flags (flags : U32) : entryFrame (flags &&& 0xFFF#32) = 0#32 := by
  have hmask : 0xFFF#32 &&& ~~~ 0xFFF#32 = 0#32 := by decide
  unfold entryFrame
  rw [BitVec.and_assoc, hmask, BitVec.and_zero]

/-- The present bit is among the flags. -/
theorem isPresent_flags (flags : U32) : IsPresent (flags &&& 0xFFF#32) ↔ IsPresent flags := by
  rw [isPresent_iff, isPresent_iff, BitVec.getLsbD_and]
  simp

/-- The user bit of an entry. -/
def IsUser (e : U32) : Prop := e &&& pteUser ≠ 0#32

instance (e : U32) : Decidable (IsUser e) := inferInstanceAs (Decidable (_ ≠ _))

/-- Bit 2 of an entry. -/
theorem isUser_iff (e : U32) : IsUser e ↔ e.getLsbD 2 = true := by
  have hbit : pteUser = BitVec.twoPow 32 2 := by decide
  unfold IsUser
  rw [hbit, BitVec.and_twoPow]
  cases e.getLsbD 2 with
  | false => simp
  | true => simp only [if_true, ne_eq, iff_true]; decide

/-- Combined entries are open to the user when one of them is. -/
theorem isUser_or (e f : U32) : IsUser (e ||| f) ↔ IsUser e ∨ IsUser f := by
  simp only [isUser_iff, BitVec.getLsbD_or, Bool.or_eq_true]

/-- `PHYS_TO_VIRT` is a bijection of the words, wrap included. -/
theorem physToVirt_inj {p q : U32} : physToVirt p = physToVirt q ↔ p = q := by
  unfold physToVirt
  exact ⟨fun h => by bv_omega, fun h => by rw [h]⟩

/-- It keeps pages aligned. -/
theorem physToVirt_aligned {f : U32} (hf : f.PageAligned) : (physToVirt f).PageAligned := by
  rw [U32.pageAligned_iff] at hf ⊢
  unfold physToVirt
  rw [BitVec.toNat_add, show kernelVirtOffset.toNat = 0xC0000000 from rfl]
  omega

/-! ### Indices -/

/-- The directory index, as a number. -/
theorem pdIndex_toNat (v : U32) : (pdIndex v).toNat = v.toNat / 2 ^ 22 := by
  have hlt := v.isLt
  unfold pdIndex
  rw [show 0x3FF#32 = BitVec.ofNat 32 (2 ^ 10 - 1) from rfl, U32.toNat_and_low _ _ (by decide),
    BitVec.toNat_ushiftRight, Nat.shiftRight_eq_div_pow]
  omega

/-- The table index, as a number. -/
theorem ptIndex_toNat (v : U32) : (ptIndex v).toNat = v.toNat / 2 ^ 12 % 2 ^ 10 := by
  unfold ptIndex
  rw [show 0x3FF#32 = BitVec.ofNat 32 (2 ^ 10 - 1) from rfl, U32.toNat_and_low _ _ (by decide),
    BitVec.toNat_ushiftRight, Nat.shiftRight_eq_div_pow]

/-- The indices determine an aligned address. -/
theorem index_inj {v w : U32} (hv : v.PageAligned) (hw : w.PageAligned) :
    pdIndex v = pdIndex w ∧ ptIndex v = ptIndex w ↔ v = w := by
  have hv' := (U32.pageAligned_iff v).mp hv
  have hw' := (U32.pageAligned_iff w).mp hw
  constructor
  · rintro ⟨h₁, h₂⟩
    rw [← BitVec.toNat_inj, pdIndex_toNat, pdIndex_toNat] at h₁
    rw [← BitVec.toNat_inj, ptIndex_toNat, ptIndex_toNat] at h₂
    apply BitVec.eq_of_toNat_eq
    omega
  · rintro rfl
    exact ⟨rfl, rfl⟩

/-- Cleared words are zero. -/
theorem memzeroPage_eq (p : U32 → U32) {n : ℕ} (hn : n ≤ 2 ^ 32) (i : U32) :
    memzeroPage p n i = if i.toNat < n then 0#32 else p i := by
  induction n with
  | zero => simp [memzeroPage]
  | succ n ih =>
    rw [memzeroPage, Function.update_apply, ih (by omega)]
    have hi : i = BitVec.ofNat 32 n ↔ i.toNat = n := by
      rw [← BitVec.toNat_inj, BitVec.toNat_ofNat, Nat.mod_eq_of_lt (by omega)]
    by_cases hin : i.toNat = n
    · rw [if_pos (hi.mpr hin), if_pos (by omega)]
    · have hlt : i.toNat < n ↔ i.toNat < n + 1 := by omega
      rw [if_neg fun h => hin (hi.mp h)]
      simp only [hlt]

/-! ### The translation -/

/-- What an entry points to. -/
def entryTarget (e : U32) : Option U32 := if IsPresent e then some (entryFrame e) else none

@[simp] theorem entryTarget_zero : entryTarget 0#32 = none := rfl

/-- An entry, when it is present. -/
def presentEntry (e : U32) : Option U32 := if IsPresent e then some e else none

@[simp] theorem presentEntry_zero : presentEntry 0#32 = none := rfl

/-- What an entry points at is the frame of a present entry. -/
theorem entryTarget_eq (e : U32) : entryTarget e = (presentEntry e).map entryFrame := by
  unfold entryTarget presentEntry
  split
  · rfl
  · rfl

/-- An entry points at nothing exactly when it is not present. -/
theorem entryTarget_eq_none {e : U32} : entryTarget e = none ↔ ¬ IsPresent e := by
  unfold entryTarget
  split
  · simp [*]
  · simp [*]

/-- Setting the user bit of an entry does not change where it points. -/
theorem entryTarget_user (e : U32) : entryTarget (e ||| pteUser) = entryTarget e := by
  have hbit : ¬ IsPresent pteUser := by decide
  unfold entryTarget
  simp only [isPresent_or, or_iff_left hbit]
  rw [entryFrame_or, show entryFrame pteUser = 0#32 from rfl, BitVec.or_zero]

/-- The directory entry of a new page table. -/
theorem entryTarget_table {f : U32} (hf : f.PageAligned) :
    entryTarget (f ||| ptePresent ||| pteWritable) = some f := by
  have hpresent : IsPresent (f ||| ptePresent ||| pteWritable) := by
    rw [isPresent_or, isPresent_or]
    exact .inl (.inr (by decide))
  unfold entryTarget
  rw [if_pos hpresent, entryFrame_or, entryFrame_or, (entryFrame_of_aligned hf).1,
    show entryFrame ptePresent = 0#32 from rfl, show entryFrame pteWritable = 0#32 from rfl,
    BitVec.or_zero, BitVec.or_zero]

/-- The entry that `vmm_map_page` writes. -/
theorem entryTarget_map {phys : U32} (hphys : phys.PageAligned) (flags : U32) :
    entryTarget (entryFrame phys ||| (flags &&& 0xFFF#32)) =
      if IsPresent flags then some phys else none := by
  obtain ⟨hframe, hflags⟩ := entryFrame_of_aligned hphys
  unfold entryTarget
  rw [hframe, entryFrame_or, hframe, entryFrame_flags, BitVec.or_zero]
  simp only [isPresent_or, isPresent_flags, or_iff_right hflags]

section Translation
variable {σ : Type*} {ops : PmmOps σ} {s s' : VmmState σ} {i t k : U32}

/-- The page table of a directory entry. -/
def VmmState.dir (s : VmmState σ) (i : U32) : Option U32 := (entryTarget (s.pd i)).map physToVirt

/-- The frame of an entry of a page table. -/
def VmmState.tab (s : VmmState σ) (t k : U32) : Option U32 := entryTarget (s.table t k)

/-- The frame that the page tables give for an address. -/
def VmmState.translate (s : VmmState σ) (v : U32) : Option U32 :=
  TwoLevelMap.lookup s.dir s.tab (pdIndex v) (ptIndex v)

/-- `vmm_get_physical` reads the translation. -/
theorem vmmGetPhysical_eq (v : U32) (s : VmmState σ) :
    vmmGetPhysical v s = if s.ready ∧ v.PageAligned then s.translate v else none := by
  unfold vmmGetPhysical VmmState.translate TwoLevelMap.lookup VmmState.dir VmmState.tab entryTarget
  cases s.ready with
  | false => simp
  | true =>
    by_cases hv : v.PageAligned
    · by_cases hpde : IsPresent (s.pd (pdIndex v))
      · simp [hv, hpde]
      · simp [hv, hpde]
    · simp [hv]

/-- `vmm_is_mapped` tells whether there is a translation. -/
theorem vmmIsMapped_eq (v : U32) (s : VmmState σ) :
    vmmIsMapped v s =
      if s.ready ∧ v.PageAligned then (if (s.translate v).isSome then 1 else 0) else -1 := by
  unfold vmmIsMapped VmmState.translate TwoLevelMap.lookup VmmState.dir VmmState.tab entryTarget
  cases s.ready with
  | false => simp
  | true =>
    by_cases hv : v.PageAligned
    · by_cases hpde : IsPresent (s.pd (pdIndex v))
      · by_cases hpte : IsPresent (s.table (physToVirt (entryFrame (s.pd (pdIndex v)))) (ptIndex v))
        · simp [hv, hpde, hpte]
        · simp [hv, hpde, hpte]
      · simp [hv, hpde]
    · simp [hv]

/-- The entry of an address, when it and the directory entry are present. -/
def VmmState.entry (s : VmmState σ) (v : U32) : Option U32 :=
  TwoLevelMap.lookup s.dir (fun t k => presentEntry (s.table t k)) (pdIndex v) (ptIndex v)

/-- The translation is the frame of the entry. -/
theorem VmmState.translate_eq (s : VmmState σ) (v : U32) :
    s.translate v = (s.entry v).map entryFrame := by
  have htab : s.tab = fun t k => (presentEntry (s.table t k)).map entryFrame := by
    funext t k
    exact entryTarget_eq _
  unfold VmmState.translate VmmState.entry
  rw [htab]
  exact TwoLevelMap.lookup_map entryFrame _ _

/-- A present directory entry gives the pointer to its table. -/
theorem VmmState.dir_of_target {f : U32} (h : entryTarget (s.pd i) = some f) :
    s.dir i = some (physToVirt f) := by
  unfold VmmState.dir
  rw [h, Option.map_some]

/-- Any other gives none. -/
theorem VmmState.dir_of_not_present (h : ¬ IsPresent (s.pd i)) : s.dir i = none := by
  unfold VmmState.dir
  rw [entryTarget_eq_none.mpr h, Option.map_none]

/-- **What the physical allocator is relied on for**: the frames in use stay in use, and a frame that
it gives is aligned, was not in use and is in use from then on. -/
structure PmmOps.Lawful (ops : PmmOps σ) (InUse : σ → U32 → Prop) : Prop where
  mono : ∀ p f, InUse p f → InUse (ops.allocPage p).2 f
  fresh : ∀ p, (ops.allocPage p).1 ≠ 0#32 →
    (ops.allocPage p).1.PageAligned ∧ ¬ InUse p (ops.allocPage p).1 ∧
      InUse (ops.allocPage p).2 (ops.allocPage p).1

/-- **The invariant of the page tables**: they are in frames in use, and no two directory entries share
one. -/
structure VmmState.WellFormed (s : VmmState σ) (InUse : σ → U32 → Prop) : Prop where
  inUse : ∀ i f, entryTarget (s.pd i) = some f → InUse s.pmm f
  injective : TwoLevelMap.Injective s.dir

/-- **What mapping and unmapping leave alone**: the other static data, the frames in use, and where the
present directory entries point with their user bits. A new page table is in a frame that was not in
use. -/
structure VmmState.Extends (s s' : VmmState σ) (InUse : σ → U32 → Prop) : Prop where
  ready : s'.ready = s.ready
  nextVaddr : s'.nextVaddr = s.nextVaddr
  directMapEnd : s'.directMapEnd = s.directMapEnd
  inUse : ∀ f, InUse s.pmm f → InUse s'.pmm f
  target : ∀ i f, entryTarget (s.pd i) = some f → entryTarget (s'.pd i) = some f
  user : ∀ i, IsPresent (s.pd i) → IsUser (s.pd i) → IsUser (s'.pd i)
  fresh : ∀ i f, entryTarget (s'.pd i) = some f →
    entryTarget (s.pd i) = some f ∨ ¬ InUse s.pmm f

variable {InUse : σ → U32 → Prop}

/-- A state extends itself. -/
theorem VmmState.Extends.refl (s : VmmState σ) : s.Extends s InUse :=
  ⟨rfl, rfl, rfl, fun _ h => h, fun _ _ h => h, fun _ _ h => h, fun _ _ h => .inl h⟩

/-- A present directory entry stays present. -/
theorem VmmState.Extends.present (h : s.Extends s' InUse) (hi : IsPresent (s.pd i)) :
    IsPresent (s'.pd i) := by
  by_contra hnot
  have htarget := h.target i (entryFrame (s.pd i)) (if_pos hi)
  rw [entryTarget_eq_none.mpr hnot] at htarget
  exact absurd htarget (by simp)

/-- Extending is transitive. -/
theorem VmmState.Extends.trans {s'' : VmmState σ} (h : s.Extends s' InUse)
    (h' : s'.Extends s'' InUse) : s.Extends s'' InUse where
  ready := h'.ready.trans h.ready
  nextVaddr := h'.nextVaddr.trans h.nextVaddr
  directMapEnd := h'.directMapEnd.trans h.directMapEnd
  inUse f hf := h'.inUse f (h.inUse f hf)
  target i f hf := h'.target i f (h.target i f hf)
  user i hp hu := h'.user i (h.present hp) (h.user i hp hu)
  fresh i f hf := by
    rcases h'.fresh i f hf with hf' | hf'
    · exact h.fresh i f hf'
    · exact .inr fun hu => hf' (h.inUse f hu)

/-- Writing an entry of a page table changes the entry of one page. -/
theorem VmmState.WellFormed.write (h : s.WellFormed InUse) {virt : U32} (hvirt : virt.PageAligned)
    (ht : s.dir (pdIndex virt) = some t) (e : U32) {s' : VmmState σ}
    (hs' : s' = { s with table := update s.table t (update (s.table t) (ptIndex virt) e) }) :
    s'.WellFormed InUse ∧ s.Extends s' InUse ∧
      ∀ v, v.PageAligned → s'.entry v = if v = virt then presentEntry e else s.entry v := by
  subst hs'
  refine ⟨⟨h.inUse, h.injective⟩, ⟨rfl, rfl, rfl, fun _ h => h, fun _ _ h => h, fun _ _ h => h,
    fun _ _ h => .inl h⟩, fun v hv => ?_⟩
  set s' : VmmState σ :=
    { s with table := update s.table t (update (s.table t) (ptIndex virt) e) } with hs'
  have hother : ∀ u, u ≠ t → (fun k => presentEntry (s'.table u k)) =
      fun k => presentEntry (s.table u k) := by
    intro u hu
    funext k
    simp only [hs', Function.update_of_ne hu]
  have htab : ∀ k, presentEntry (s'.table t k) =
      if k = ptIndex virt then presentEntry e else presentEntry (s.table t k) := by
    intro k
    by_cases hk : k = ptIndex virt
    · simp only [hs', hk, Function.update_self, if_true]
    · simp only [hs', Function.update_self, Function.update_of_ne hk, if_neg hk]
  unfold VmmState.entry
  rw [show s'.dir = s.dir from rfl, TwoLevelMap.lookup_write h.injective ht hother htab]
  simp only [index_inj hv hvirt]

/-- Linking a cleared page table in a fresh frame changes no entry. -/
theorem VmmState.WellFormed.link (h : s.WellFormed InUse) (hi : ¬ IsPresent (s.pd i)) {f : U32}
    (hf : f.PageAligned) {pmm : σ} (hmono : ∀ x, InUse s.pmm x → InUse pmm x)
    (hfresh : ¬ InUse s.pmm f) (huse : InUse pmm f) {s' : VmmState σ}
    (hs' : s' = { s with
      pmm := pmm
      table := update s.table (physToVirt f) (memzeroPage (s.table (physToVirt f)) 1024)
      pd := update s.pd i (f ||| ptePresent ||| pteWritable) }) :
    s'.WellFormed InUse ∧ s.Extends s' InUse ∧ s'.dir i = some (physToVirt f) ∧
      ∀ v, s'.entry v = s.entry v := by
  have hunlinked : ∀ j, s.dir j ≠ some (physToVirt f) := by
    intro j hj
    obtain ⟨x, hx, hxf⟩ := Option.map_eq_some_iff.mp hj
    rw [physToVirt_inj] at hxf
    exact hfresh (hxf ▸ h.inUse j x hx)
  have hpd : s'.pd i = f ||| ptePresent ||| pteWritable := by
    rw [hs']
    exact Function.update_self ..
  have hpd' : ∀ j, j ≠ i → s'.pd j = s.pd j := by
    intro j hj
    rw [hs']
    exact Function.update_of_ne hj ..
  have hpmm : s'.pmm = pmm := by rw [hs']
  -- an entry that is present already is another one
  have hne : ∀ j, IsPresent (s.pd j) → j ≠ i := by
    rintro j hj rfl
    exact hi hj
  have htarget : ∀ j x, entryTarget (s'.pd j) = some x →
      entryTarget (s.pd j) = some x ∨ x = f := by
    intro j x hx
    by_cases hji : j = i
    · rw [hji, hpd, entryTarget_table hf] at hx
      exact .inr (Option.some.inj hx).symm
    · rw [hpd' j hji] at hx
      exact .inl hx
  have hdir : s'.dir = update s.dir i (some (physToVirt f)) := by
    funext j
    by_cases hj : j = i
    · rw [hj, Function.update_self]
      apply VmmState.dir_of_target
      rw [hpd, entryTarget_table hf]
    · rw [Function.update_of_ne hj]
      unfold VmmState.dir
      rw [hpd' j hj]
  refine ⟨⟨?_, ?_⟩, ⟨by rw [hs'], by rw [hs'], by rw [hs'], ?_, ?_, ?_, ?_⟩,
    by rw [hdir, Function.update_self], fun v => ?_⟩
  · intro j x hx
    rw [hpmm]
    rcases htarget j x hx with hx | rfl
    · exact hmono x (h.inUse j x hx)
    · exact huse
  · rw [hdir]
    exact h.injective.link hunlinked
  · rw [hpmm]
    exact hmono
  · intro j x hx
    have hj : IsPresent (s.pd j) := by
      by_contra hnot
      rw [entryTarget_eq_none.mpr hnot] at hx
      exact absurd hx (by simp)
    rw [hpd' j (hne j hj)]
    exact hx
  · intro j hj hu
    rw [hpd' j (hne j hj)]
    exact hu
  · intro j x hx
    rcases htarget j x hx with hx | rfl
    · exact .inl hx
    · exact .inr hfresh
  · have hother : ∀ u, u ≠ physToVirt f → (fun k => presentEntry (s'.table u k)) =
        fun k => presentEntry (s.table u k) := by
      intro u hu
      funext k
      simp only [hs', Function.update_of_ne hu]
    have hempty : presentEntry (s'.table (physToVirt f) (ptIndex v)) = none := by
      have hlt : (ptIndex v).toNat < 1024 := by
        rw [ptIndex_toNat]
        exact Nat.mod_lt _ (by decide)
      simp only [hs', Function.update_self]
      rw [memzeroPage_eq _ (by decide), if_pos hlt, presentEntry_zero]
    unfold VmmState.entry
    rw [hdir]
    exact TwoLevelMap.lookup_link (VmmState.dir_of_not_present hi) hunlinked hother hempty _

/-- `vmm_ensure_page_table` changes no entry, and returns the table of the directory entry. -/
theorem vmmEnsurePageTable_spec (hops : ops.Lawful InUse) (h : s.WellFormed InUse) (i : U32) :
    ∃ s' pt, vmmEnsurePageTable ops i s = (s', pt) ∧ s'.WellFormed InUse ∧ s.Extends s' InUse ∧
      (∀ v, s'.entry v = s.entry v) ∧ (pt ≠ 0#32 → s'.dir i = some pt) := by
  by_cases hpde : IsPresent (s.pd i)
  · refine ⟨s, physToVirt (entryFrame (s.pd i)), ?_, h, .refl s, fun _ => rfl, fun _ => ?_⟩
    · unfold vmmEnsurePageTable
      exact if_pos hpde
    · exact VmmState.dir_of_target (if_pos hpde)
  cases halloc : ops.allocPage s.pmm with
  | mk f pmm =>
    have hmono := hops.mono s.pmm
    have hfresh := hops.fresh s.pmm
    rw [halloc] at hmono hfresh
    by_cases hf : f = 0#32
    · -- no frame for the table
      refine ⟨{ s with pmm := pmm }, 0#32, ?_,
        ⟨fun j x hx => hmono x (h.inUse j x hx), h.injective⟩,
        ⟨rfl, rfl, rfl, hmono, fun _ _ h => h, fun _ _ h => h, fun _ _ h => .inl h⟩,
        fun _ => rfl, fun hne => absurd rfl hne⟩
      simp only [vmmEnsurePageTable, if_neg hpde, halloc, if_pos hf]
    · obtain ⟨halign, hnot, huse⟩ := hfresh hf
      obtain ⟨hwf, hext, hdir, hentry⟩ := h.link hpde halign hmono hnot huse rfl
      refine ⟨_, physToVirt f, ?_, hwf, hext, hentry, fun _ => hdir⟩
      simp only [vmmEnsurePageTable, if_neg hpde, halloc, if_neg hf]

/-- Setting the user bit of a directory entry changes no table. -/
theorem VmmState.WellFormed.orUser (h : s.WellFormed InUse) (i : U32) {s' : VmmState σ}
    (hs' : s' = { s with pd := update s.pd i (s.pd i ||| pteUser) }) :
    s'.WellFormed InUse ∧ s.Extends s' InUse ∧ s'.dir = s.dir ∧ IsUser (s'.pd i) := by
  have hpd : s'.pd i = s.pd i ||| pteUser := by
    rw [hs']
    exact Function.update_self ..
  have hpd' : ∀ j, j ≠ i → s'.pd j = s.pd j := by
    intro j hj
    rw [hs']
    exact Function.update_of_ne hj ..
  have hpmm : s'.pmm = s.pmm := by rw [hs']
  have htarget : ∀ j, entryTarget (s'.pd j) = entryTarget (s.pd j) := by
    intro j
    by_cases hj : j = i
    · rw [hj, hpd, entryTarget_user]
    · rw [hpd' j hj]
  have hdir : s'.dir = s.dir := by
    funext j
    unfold VmmState.dir
    rw [htarget]
  have huser : IsUser (s'.pd i) := by
    rw [hpd, isUser_or]
    exact .inr (by decide)
  refine ⟨⟨?_, ?_⟩, ⟨by rw [hs'], by rw [hs'], by rw [hs'], ?_, ?_, ?_, ?_⟩, hdir, huser⟩
  · intro j x hx
    rw [htarget] at hx
    rw [hpmm]
    exact h.inUse j x hx
  · rw [hdir]
    exact h.injective
  · intro f hf
    rw [hpmm]
    exact hf
  · intro j f hf
    rw [htarget]
    exact hf
  · intro j _ hu
    by_cases hj : j = i
    · rw [hj]
      exact huser
    · rw [hpd' j hj]
      exact hu
  · intro j f hf
    rw [htarget] at hf
    exact .inl hf

/-- The entry that `vmm_map_page` writes. -/
def mapEntry (phys flags : U32) : U32 := entryFrame phys ||| (flags &&& 0xFFF#32)

/-- **`vmm_map_page`** is rejected and changes no entry, or sets the entry of one page; a mapping with
the user bit also sets it in the directory entry. -/
theorem vmmMapPage_entry (hops : ops.Lawful InUse) (h : s.WellFormed InUse) (virt phys flags : U32) :
    ∃ s' r, vmmMapPage ops virt phys flags s = (s', r) ∧ s'.WellFormed InUse ∧
      s.Extends s' InUse ∧
      (r = -1 ∧ (∀ v, s'.entry v = s.entry v) ∨
        r = 0 ∧ virt.PageAligned ∧ phys.PageAligned ∧ (IsUser flags → IsUser (s'.pd (pdIndex virt))) ∧
          ∀ v, v.PageAligned → s'.entry v =
            if v = virt then presentEntry (mapEntry phys flags) else s.entry v) := by
  by_cases halign : ¬ virt.PageAligned ∨ ¬ phys.PageAligned
  · refine ⟨s, -1, ?_, h, .refl s, .inl ⟨rfl, fun _ => rfl⟩⟩
    unfold vmmMapPage
    rw [if_pos halign]
  obtain ⟨hvirt, hphys⟩ : virt.PageAligned ∧ phys.PageAligned := by
    push Not at halign
    exact halign
  obtain ⟨s₁, pt, hens, hwf, hext, hentry, hpt⟩ := vmmEnsurePageTable_spec hops h (pdIndex virt)
  by_cases hnull : pt = 0#32
  · refine ⟨s₁, -1, ?_, hwf, hext, .inl ⟨rfl, hentry⟩⟩
    simp only [vmmMapPage, if_neg halign, hens, if_pos hnull]
  -- the directory entry may get the user bit before the entry is written
  obtain ⟨s₂, hs₂, hwf₂, hext₂, hdir₂, htable₂, huser₂⟩ : ∃ s₂ : VmmState σ,
      s₂ = (if flags &&& pteUser ≠ 0#32 then
        { s₁ with pd := update s₁.pd (pdIndex virt) (s₁.pd (pdIndex virt) ||| pteUser) } else s₁) ∧
      s₂.WellFormed InUse ∧ s₁.Extends s₂ InUse ∧ s₂.dir = s₁.dir ∧ s₂.table = s₁.table ∧
      (IsUser flags → IsUser (s₂.pd (pdIndex virt))) := by
    by_cases huser : flags &&& pteUser ≠ 0#32
    · obtain ⟨hwf₂, hext₂, hdir₂, huser₂⟩ := hwf.orUser (pdIndex virt) rfl
      exact ⟨_, (if_pos huser).symm, hwf₂, hext₂, hdir₂, rfl, fun _ => huser₂⟩
    · exact ⟨_, (if_neg huser).symm, hwf, .refl s₁, rfl, rfl, fun hu => absurd hu huser⟩
  have hentry₂ : ∀ v, s₂.entry v = s.entry v := by
    intro v
    rw [← hentry v]
    unfold VmmState.entry
    rw [hdir₂, htable₂]
  obtain ⟨s₃, hs₃⟩ : ∃ s₃ : VmmState σ, s₃ = { s₂ with
      table := update s₂.table pt (update (s₂.table pt) (ptIndex virt) (mapEntry phys flags)) } :=
    ⟨_, rfl⟩
  have hpd₃ : s₃.pd = s₂.pd := by rw [hs₃]
  obtain ⟨hwf₃, hext₃, hentry₃⟩ := hwf₂.write hvirt ((congrFun hdir₂ _).trans (hpt hnull))
    (mapEntry phys flags) hs₃
  refine ⟨s₃, 0, ?_, hwf₃, (hext.trans hext₂).trans hext₃,
    .inr ⟨rfl, hvirt, hphys, fun hu => ?_, fun v hv => ?_⟩⟩
  · simp only [vmmMapPage, if_neg halign, hens, if_neg hnull]
    rw [← hs₂, hs₃]
    rfl
  · rw [hpd₃]
    exact huser₂ hu
  · rw [hentry₃ v hv, hentry₂]

/-- `vmm_map_page` is rejected and changes no translation, or sets the translation of one page. -/
theorem vmmMapPage_spec (hops : ops.Lawful InUse) (h : s.WellFormed InUse) (virt phys flags : U32) :
    ∃ s' r, vmmMapPage ops virt phys flags s = (s', r) ∧ s'.WellFormed InUse ∧
      s.Extends s' InUse ∧
      (r = -1 ∧ (∀ v, s'.translate v = s.translate v) ∨
        r = 0 ∧ virt.PageAligned ∧ ∀ v, v.PageAligned → s'.translate v =
          if v = virt then (if IsPresent flags then some phys else none) else s.translate v) := by
  obtain ⟨s', r, hres, hwf, hext, hcase⟩ := vmmMapPage_entry hops h virt phys flags
  refine ⟨s', r, hres, hwf, hext, ?_⟩
  rcases hcase with ⟨hr, hentry⟩ | ⟨hr, hvirt, hphys, -, hentry⟩
  · refine .inl ⟨hr, fun v => ?_⟩
    rw [VmmState.translate_eq, hentry, ← VmmState.translate_eq]
  · refine .inr ⟨hr, hvirt, fun v hv => ?_⟩
    rw [VmmState.translate_eq, hentry v hv]
    split
    · rw [← entryTarget_eq]
      exact entryTarget_map hphys flags
    · rw [← VmmState.translate_eq]

/-- **`vmm_unmap_page`** removes the entry of one page. -/
theorem vmmUnmapPage_entry (h : s.WellFormed InUse) (virt : U32) :
    (vmmUnmapPage virt s).WellFormed InUse ∧ s.Extends (vmmUnmapPage virt s) InUse ∧
      (vmmUnmapPage virt s).pmm = s.pmm ∧
      ∀ v, v.PageAligned → (vmmUnmapPage virt s).entry v = if v = virt then none else s.entry v := by
  by_cases hvirt : virt.PageAligned
  · by_cases hpde : IsPresent (s.pd (pdIndex virt))
    · have heq : vmmUnmapPage virt s = { s with
          table := update s.table (physToVirt (entryFrame (s.pd (pdIndex virt))))
            (update (s.table (physToVirt (entryFrame (s.pd (pdIndex virt))))) (ptIndex virt) 0#32) } := by
        unfold vmmUnmapPage
        rw [if_neg (not_not.mpr hvirt)]
        exact if_neg (not_not.mpr hpde)
      obtain ⟨hwf, hext, hentry⟩ := h.write hvirt (VmmState.dir_of_target (if_pos hpde)) 0#32 heq
      exact ⟨hwf, hext, by rw [heq], hentry⟩
    · have heq : vmmUnmapPage virt s = s := by
        unfold vmmUnmapPage
        rw [if_neg (not_not.mpr hvirt)]
        exact if_pos hpde
      rw [heq]
      refine ⟨h, .refl s, rfl, fun v hv => ?_⟩
      split
      · -- the page had no table
        rename_i hveq
        rw [hveq]
        exact TwoLevelMap.lookup_of_none (VmmState.dir_of_not_present hpde) _
      · rfl
  · have heq : vmmUnmapPage virt s = s := by
      unfold vmmUnmapPage
      exact if_pos hvirt
    rw [heq]
    refine ⟨h, .refl s, rfl, fun v hv => ?_⟩
    rw [if_neg]
    rintro rfl
    exact hvirt hv

/-- `vmm_unmap_page` removes the translation of one page. -/
theorem vmmUnmapPage_spec (h : s.WellFormed InUse) (virt : U32) :
    (vmmUnmapPage virt s).WellFormed InUse ∧ (vmmUnmapPage virt s).ready = s.ready ∧
      ∀ v, v.PageAligned → (vmmUnmapPage virt s).translate v =
        if v = virt then none else s.translate v := by
  obtain ⟨hwf, hext, -, hentry⟩ := vmmUnmapPage_entry h virt
  refine ⟨hwf, hext.ready, fun v hv => ?_⟩
  rw [VmmState.translate_eq, hentry v hv]
  split
  · rfl
  · rw [← VmmState.translate_eq]

/-- The loop clears the present entries of the first `n`. -/
theorem unmapIdentityLoop_eq (pd : U32 → U32) {n : ℕ} (hn : n ≤ 2 ^ 32) (i : U32) :
    unmapIdentityLoop pd n i = if i.toNat < n ∧ IsPresent (pd i) then 0#32 else pd i := by
  induction n with
  | zero => simp [unmapIdentityLoop]
  | succ n ih =>
    have hin : i = BitVec.ofNat 32 n ↔ i.toNat = n := by
      rw [← BitVec.toNat_inj, BitVec.toNat_ofNat, Nat.mod_eq_of_lt (by omega)]
    have ih' := ih (by omega)
    unfold unmapIdentityLoop
    by_cases hi : i.toNat = n
    · obtain rfl := hin.mpr hi
      rw [hi] at ih'
      simp only [lt_irrefl, false_and, if_false] at ih'
      simp only [ih', hi, Nat.lt_succ_self, true_and]
      split
      · exact Function.update_self ..
      · exact ih'
    · have hne : i ≠ BitVec.ofNat 32 n := fun h => hi (hin.mp h)
      have hlt : i.toNat < n + 1 ↔ i.toNat < n := by omega
      simp only [hlt]
      rw [← ih']
      split
      · exact Function.update_of_ne hne ..
      · rfl

/-- **`vmm_unmap_identity`** removes the directory entries below the high half. -/
theorem vmmUnmapIdentity_pd (hready : s.ready) (i : U32) :
    (i.toNat < 768 → ¬ IsPresent ((vmmUnmapIdentity s).pd i)) ∧
      (768 ≤ i.toNat → (vmmUnmapIdentity s).pd i = s.pd i) := by
  have hn : (pdIndex kernelVirtOffset).toNat = 768 := by decide
  have heq : (vmmUnmapIdentity s).pd = unmapIdentityLoop s.pd 768 := by
    unfold vmmUnmapIdentity
    rw [if_neg (not_not.mpr hready), hn]
  have hzero : ¬ IsPresent 0#32 := by decide
  rw [heq, unmapIdentityLoop_eq s.pd (by decide) i]
  constructor
  · intro hi
    split
    · exact hzero
    · rename_i hnot
      exact fun hp => hnot ⟨hi, hp⟩
  · intro hi
    exact if_neg fun hc => absurd hc.1 (Nat.not_lt.mpr hi)

/-- It leaves the rest of the state alone. -/
theorem vmmUnmapIdentity_rest (s : VmmState σ) :
    (vmmUnmapIdentity s).table = s.table ∧ (vmmUnmapIdentity s).ready = s.ready ∧
      (vmmUnmapIdentity s).nextVaddr = s.nextVaddr ∧
      (vmmUnmapIdentity s).directMapEnd = s.directMapEnd ∧ (vmmUnmapIdentity s).pmm = s.pmm := by
  unfold vmmUnmapIdentity
  split
  · exact ⟨rfl, rfl, rfl, rfl, rfl⟩
  · exact ⟨rfl, rfl, rfl, rfl, rfl⟩

/-- A directory entry that is present afterwards was there before. -/
theorem vmmUnmapIdentity_target {f : U32}
    (hi : entryTarget ((vmmUnmapIdentity s).pd i) = some f) :
    (vmmUnmapIdentity s).pd i = s.pd i := by
  by_cases hready : s.ready
  · obtain ⟨hlow, hhigh⟩ := vmmUnmapIdentity_pd hready i
    rcases Nat.lt_or_ge i.toNat 768 with hlt | hge
    · rw [entryTarget_eq_none.mpr (hlow hlt)] at hi
      exact absurd hi (by simp)
    · exact hhigh hge
  · unfold vmmUnmapIdentity
    rw [if_pos hready]

/-- The entries below the high half are gone, the others stay. -/
theorem vmmUnmapIdentity_entry (h : s.WellFormed InUse) :
    (vmmUnmapIdentity s).WellFormed InUse ∧
      (s.ready → ∀ v, (vmmUnmapIdentity s).entry v =
        if v < kernelVirtOffset then none else s.entry v) := by
  obtain ⟨htable, -, -, -, hpmm⟩ := vmmUnmapIdentity_rest s
  refine ⟨⟨?_, ?_⟩, fun hready v => ?_⟩
  · intro i f hf
    rw [vmmUnmapIdentity_target hf] at hf
    rw [hpmm]
    exact h.inUse i f hf
  · refine h.injective.unlink fun i t hi => ?_
    obtain ⟨f, hf, rfl⟩ := Option.map_eq_some_iff.mp hi
    rw [vmmUnmapIdentity_target hf] at hf
    exact VmmState.dir_of_target hf
  · have hlow : v < kernelVirtOffset ↔ (pdIndex v).toNat < 768 := by
      rw [pdIndex_toNat, BitVec.lt_def, show kernelVirtOffset.toNat = 768 * 2 ^ 22 from rfl]
      omega
    obtain ⟨hgone, hhigh⟩ := vmmUnmapIdentity_pd hready (pdIndex v)
    unfold VmmState.entry
    split
    · rename_i hlt
      apply TwoLevelMap.lookup_of_none
      apply VmmState.dir_of_not_present
      exact hgone (hlow.mp hlt)
    · rename_i hge
      have hpd := hhigh (Nat.not_lt.mp fun hlt => hge (hlow.mpr hlt))
      unfold TwoLevelMap.lookup VmmState.dir
      rw [hpd, htable]

/-- `vmm_unmap_identity` removes the translations below the high half. -/
theorem vmmUnmapIdentity_spec (h : s.WellFormed InUse) :
    (vmmUnmapIdentity s).WellFormed InUse ∧ (vmmUnmapIdentity s).ready = s.ready ∧
      (s.ready → ∀ v, (vmmUnmapIdentity s).translate v =
        if v < kernelVirtOffset then none else s.translate v) := by
  obtain ⟨hwf, hentry⟩ := vmmUnmapIdentity_entry h
  refine ⟨hwf, (vmmUnmapIdentity_rest s).2.1, fun hready v => ?_⟩
  rw [VmmState.translate_eq, hentry hready v]
  split
  · rfl
  · rw [← VmmState.translate_eq]

end Translation

end Microkernel.Vmm
