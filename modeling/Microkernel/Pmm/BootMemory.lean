import Microkernel.Pmm.MemoryMap
import Mathlib.Logic.Function.Basic

/-! # Physical memory behind the boot directory

Until `vmm_init` loads its own page directory every pointer of the kernel goes through that of
`boot.asm`, which shows the first GiB at its own addresses and again from `KERNEL_VIRT_OFFSET` on. The
physical memory manager keeps its bitmaps in the memory that it manages and reaches them through such
pointers, so what it writes is decided here:

* **`loadByte`, `storeByte`** — one byte at a pointer, in the physical memory that the directory shows
  there; `storeByte_of_eq` and `loadByte_of_eq` compute them where the translation is known.
* **`BootMapped v n`** — the `n` bytes from `v` on are shown. It is decided by two comparisons,
  `bootMapped_iff`.
* **`fillBytes`** — a loop that writes `n` bytes one behind the other, `none` when it comes to a byte
  that is not shown, which is a page fault. `bootOffset_eq_some_iff` says which bytes it hits. -/

namespace Microkernel.Pmm

/-- The bytes of physical memory. -/
abbrev PhysicalMemory := U32 → U8

/-- The byte at a pointer; 0 where nothing is shown, which no access of a modelled function comes to. -/
def loadByte (m : PhysicalMemory) (v : U32) : U8 := ((bootTranslate v).map m).getD 0#8

/-- A byte is stored at a pointer; where nothing is shown memory stays as it is. -/
def storeByte (m : PhysicalMemory) (v : U32) (x : U8) : PhysicalMemory :=
  match bootTranslate v with
  | some a => Function.update m a x
  | none => m

/-- The `n` bytes from `v` on are shown. -/
def BootMapped (v : U32) (n : ℕ) : Prop :=
  ∀ k < n, (bootTranslate (v + BitVec.ofNat 32 k)).isSome

/-- The byte behind the pointer `v`, of the first `n`, at which the physical address `a` is shown. -/
def bootOffset (v : U32) (n : ℕ) (a : U32) : Option ℕ :=
  if a.toNat < 2 ^ 30 then
    if (a - v).toNat < n then some (a - v).toNat
    else if (physToVirt a - v).toNat < n then some (physToVirt a - v).toNat
    else none
  else none

/-! ### Translations -/

section
variable {m : PhysicalMemory} {v a b : U32} {x : U8} {n k : ℕ}

/-- A byte read through a pointer that the boot map translates is the byte of its frame. -/
theorem loadByte_of_eq (h : bootTranslate v = some a) : loadByte m v = m a := by
  rw [loadByte, h]
  rfl

/-- A byte written through such a pointer lands in its frame. -/
theorem storeByte_of_eq (h : bootTranslate v = some a) : storeByte m v x = Function.update m a x := by
  rw [storeByte, h]

/-- A byte that is not behind the pointer stays. -/
theorem storeByte_of_ne (h : bootTranslate v ≠ some a) : storeByte m v x a = m a := by
  unfold storeByte
  cases hv : bootTranslate v with
  | none => rfl
  | some b => exact Function.update_of_ne (fun hab => h (hv.trans (congrArg some hab.symm))) x m

/-- What is read behind a pointer when the byte that it shows stays. -/
theorem loadByte_congr {m' : PhysicalMemory} (h : ∀ a, bootTranslate v = some a → m' a = m a) :
    loadByte m' v = loadByte m v := by
  unfold loadByte
  cases hv : bootTranslate v with
  | none => rfl
  | some a => exact h a hv

/-- The directory shows the first GiB and the last. -/
theorem isSome_bootTranslate : (bootTranslate v).isSome ↔ v.toNat < 2 ^ 30 ∨ 3 * 2 ^ 30 ≤ v.toNat := by
  have hlow : v < 0x40000000#32 ↔ v.toNat < 2 ^ 30 := BitVec.lt_def
  have hhigh : 0xC0000000#32 ≤ v ↔ 3 * 2 ^ 30 ≤ v.toNat := BitVec.le_def
  unfold bootTranslate
  by_cases h : v < 0x40000000#32
  · rw [if_pos h]
    exact iff_of_true rfl (.inl (hlow.mp h))
  · rw [if_neg h, ← hlow, ← hhigh]
    by_cases h' : 0xC0000000#32 ≤ v <;> simp [h, h']

/-- A physical address is shown at itself and at `PHYS_TO_VIRT` of it, in the first GiB. -/
theorem bootTranslate_eq_some_iff :
    bootTranslate v = some a ↔ a.toNat < 2 ^ 30 ∧ (v = a ∨ v = physToVirt a) := by
  have hlow : v < 0x40000000#32 ↔ v.toNat < 2 ^ 30 := BitVec.lt_def
  have hhigh : 0xC0000000#32 ≤ v ↔ 3 * 2 ^ 30 ≤ v.toNat := BitVec.le_def
  have hlt := v.isLt
  unfold bootTranslate physToVirt kernelVirtOffset
  by_cases h : v < 0x40000000#32
  · rw [if_pos h, Option.some_inj]
    have := hlow.mp h
    constructor
    · rintro rfl
      exact ⟨this, .inl rfl⟩
    · rintro ⟨ha, rfl | rfl⟩
      · rfl
      · bv_omega
  · rw [if_neg h]
    have := mt hlow.mpr h
    by_cases h' : 0xC0000000#32 ≤ v
    · rw [if_pos h', Option.some_inj]
      have := hhigh.mp h'
      constructor
      · rintro rfl
        exact ⟨by bv_omega, .inr (by bv_omega)⟩
      · rintro ⟨ha, rfl | rfl⟩
        · omega
        · bv_omega
    · rw [if_neg h']
      have := mt hhigh.mpr h'
      refine iff_of_false (by simp) ?_
      rintro ⟨ha, rfl | rfl⟩
      · omega
      · bv_omega

/-- **A range is shown** when it ends at the first GiB, or starts in the last and ends one GiB behind
its end. -/
theorem bootMapped_iff :
    BootMapped v n ↔ n = 0 ∨ v.toNat + n ≤ 2 ^ 30 ∨
      (3 * 2 ^ 30 ≤ v.toNat ∧ v.toNat + n ≤ 5 * 2 ^ 30) := by
  have hv := v.isLt
  have hbyte : ∀ k, (bootTranslate (v + BitVec.ofNat 32 k)).isSome ↔
      (v.toNat + k) % 2 ^ 32 < 2 ^ 30 ∨ 3 * 2 ^ 30 ≤ (v.toNat + k) % 2 ^ 32 := by
    intro k
    rw [isSome_bootTranslate, BitVec.toNat_add, BitVec.toNat_ofNat, Nat.add_mod_mod]
  constructor
  · intro h
    by_contra hno
    rw [not_or, not_or] at hno
    obtain ⟨hn, hfirst, hlast⟩ := hno
    -- the first byte that is not shown is the one at 1 GiB
    have h₀ := (hbyte 0).mp (h 0 (by omega))
    by_cases hlow : v.toNat < 2 ^ 30
    · have := (hbyte (2 ^ 30 - v.toNat)).mp (h _ (by omega))
      omega
    · have := (hbyte (5 * 2 ^ 30 - v.toNat)).mp (h _ (by omega))
      omega
  · intro h k hk
    rw [hbyte]
    omega

instance (v : U32) (n : ℕ) : Decidable (BootMapped v n) := decidable_of_iff _ bootMapped_iff.symm

/-- The bytes that are hit behind a pointer. -/
theorem bootOffset_eq_some_iff (hn : n ≤ 2 ^ 30) :
    bootOffset v n a = some k ↔ k < n ∧ bootTranslate (v + BitVec.ofNat 32 k) = some a := by
  rw [bootTranslate_eq_some_iff]
  have hat : ∀ c : U32, k < n → (v + BitVec.ofNat 32 k = c ↔ (c - v).toNat = k) := by
    intro c hk
    have hnat : (BitVec.ofNat 32 k).toNat = k := by
      rw [BitVec.toNat_ofNat, Nat.mod_eq_of_lt (by omega)]
    rw [← BitVec.toNat_inj]
    bv_omega
  unfold bootOffset
  by_cases ha : a.toNat < 2 ^ 30
  · rw [if_pos ha]
    -- the two places of a byte are 1 GiB apart
    have hgap : (physToVirt a - v).toNat = (a - v).toNat + 3 * 2 ^ 30 ∨
        (a - v).toNat = (physToVirt a - v).toNat + 2 ^ 30 := by
      unfold physToVirt kernelVirtOffset
      bv_omega
    by_cases hself : (a - v).toNat < n
    · rw [if_pos hself, Option.some_inj]
      constructor
      · rintro rfl
        exact ⟨hself, ha, .inl ((hat a hself).mpr rfl)⟩
      · rintro ⟨hk, -, heq | heq⟩
        · exact (hat a hk).mp heq
        · have := (hat _ hk).mp heq
          omega
    · rw [if_neg hself]
      by_cases hvirt : (physToVirt a - v).toNat < n
      · rw [if_pos hvirt, Option.some_inj]
        constructor
        · rintro rfl
          exact ⟨hvirt, ha, .inr ((hat _ hvirt).mpr rfl)⟩
        · rintro ⟨hk, -, heq | heq⟩
          · have := (hat a hk).mp heq
            omega
          · exact (hat _ hk).mp heq
      · rw [if_neg hvirt]
        refine iff_of_false (by simp) ?_
        rintro ⟨hk, -, heq | heq⟩
        · have := (hat a hk).mp heq
          omega
        · have := (hat _ hk).mp heq
          omega
  · rw [if_neg ha]
    exact iff_of_false (by simp) fun h => ha h.2.1

end

/-! ### Writing a range -/

/-- A loop that writes byte `k` of a range, `value k`, at `v + k`: `none` when a byte is not shown. -/
def fillBytes (m : PhysicalMemory) (v : U32) (n : ℕ) (value : ℕ → U8) : Option PhysicalMemory :=
  if BootMapped v n then some fun a => ((bootOffset v n a).map value).getD (m a) else none

section
variable {m m' : PhysicalMemory} {v a : U32} {n k : ℕ} {value : ℕ → U8}

/-- What is read behind the pointer afterwards. -/
theorem loadByte_fillBytes (hn : n ≤ 2 ^ 30) (h : fillBytes m v n value = some m') (hk : k < n) :
    loadByte m' (v + BitVec.ofNat 32 k) = value k := by
  unfold fillBytes at h
  split at h
  · rename_i hmapped
    obtain ⟨a, ha⟩ := Option.isSome_iff_exists.mp (hmapped k hk)
    rw [loadByte_of_eq ha, ← Option.some.inj h]
    dsimp only
    rw [(bootOffset_eq_some_iff hn).mpr ⟨hk, ha⟩]
    rfl
  · cases h

/-- All other bytes of memory stay. -/
theorem fillBytes_of_forall_ne (hn : n ≤ 2 ^ 30) (h : fillBytes m v n value = some m')
    (ha : ∀ k < n, bootTranslate (v + BitVec.ofNat 32 k) ≠ some a) : m' a = m a := by
  unfold fillBytes at h
  split at h
  · rw [← Option.some.inj h]
    dsimp only
    cases hoff : bootOffset v n a with
    | none => rfl
    | some k =>
      obtain ⟨hk, heq⟩ := (bootOffset_eq_some_iff hn).mp hoff
      exact absurd heq (ha k hk)
  · cases h

end

end Microkernel.Pmm
