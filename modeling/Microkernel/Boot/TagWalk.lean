import Microkernel.Boot.Multiboot

/-! # Walks over the tags

A tag says how long it is, and the walk goes on behind it. Added without wrapping, the sizes make a chain of
natural numbers; the loops follow it as long as no sum that they form reaches `2 ^ 32`.

* **`WalksTags`** — what the loops share, so that the argument is made once: the test, and where the walk
  goes on.
* **`StaysBelow`** — no address formed along the chain reaches `2 ^ 32`; it is a condition on the bytes in
  memory, not on the loop.
* **`SafeWalk`** — the walk ends, and every header that it reads lies in the boot information.
* **`mb2Walkers_safe_iff`** — each walker is safe exactly under this condition. A sum that wraps leads out
  of the information or back into it, and then the loop need not end.
-/

namespace Microkernel.Boot

open Relation (ReflTransGen)

/-- The `n` bytes from `a` on lie in the boot information. -/
def Inside (base total a : U32) (n : ℕ) : Prop :=
  base.toNat ≤ a.toNat ∧ a.toNat + n ≤ base.toNat + total.toNat

/-- **A safe walk**: it ends, the headers it reads lie in the boot information, and so does the whole tag
that it returns. -/
structure SafeWalk {σ ρ : Type} (memory : U32 → U8) (base total : U32) (header : σ → U32)
    (returned : ρ → Option U32) (walk : ℕ → Rounds σ ρ) : Prop where
  ends : ∃ n r, (walk n).result = some r
  header_inside : ∀ n, ∀ s ∈ (walk n).entered, Inside base total (header s) 8
  tag_inside : ∀ n r p, (walk n).result = some r → returned r = some p →
    Inside base total p (tagSize memory p).toNat

/-- Each header that is read lies above the ones read before it. -/
def Ascends {σ ρ : Type} (header : σ → U32) (walk : ℕ → Rounds σ ρ) : Prop :=
  ∀ n, (walk n).entered.Pairwise fun s t => header s < header t

/-! ### The chain of tags -/

section Chain
variable (memory : U32 → U8) (base total : U32) (goes : U32 → Prop)

/-- The bytes of the tag at an address, with its padding. -/
def tagSpan (a : ℕ) : ℕ := padded (tagSize memory (BitVec.ofNat 32 a)).toNat

/-- The header at an address lies in front of the end, and the loop passes over the tag. -/
def Passes (a : ℕ) : Prop := a + 8 ≤ base.toNat + total.toNat ∧ goes (BitVec.ofNat 32 a)

/-- The addresses behind the header of the information, where the sizes lead to. -/
def OnChain (a : ℕ) : Prop :=
  ReflTransGen (fun a b => Passes base total goes a ∧ b = a + tagSpan memory a) (base.toNat + 8) a

/-- Behind every tag of the chain that the loop passes over there are eight more addresses. -/
def NoWrap : Prop :=
  ∀ a, OnChain memory base total goes a → Passes base total goes a → a + tagSpan memory a + 8 < 2 ^ 32

variable {memory base total goes} in
/-- A set with the first address that each step keeps has the whole chain. -/
theorem OnChain.mem_of_closed {S : List ℕ} (hfirst : base.toNat + 8 ∈ S)
    (hstep : ∀ a ∈ S, Passes base total goes a → a + tagSpan memory a ∈ S) {a : ℕ}
    (h : OnChain memory base total goes a) : a ∈ S := by
  induction h with
  | refl => exact hfirst
  | tail _ hpass ih =>
    obtain ⟨hpass, rfl⟩ := hpass
    exact hstep _ ih hpass

end Chain

/-- What the loops have in common: they test for the end, and go on behind each tag that they pass over. -/
structure WalksTags {σ ρ : Type} (memory : U32 → U8) (stop : U32) (goes : U32 → Prop)
    (header : σ → U32) (L : WhileLoop σ ρ) : Prop where
  test_iff : ∀ s, L.test s = true ↔ header s + 8#32 ≤ stop
  next_of_goes : ∀ s, L.test s = true → goes (header s) → ∃ s', L.Next s s'
  goes_of_next : ∀ s s', L.Next s s' →
    goes (header s) ∧ header s' = header s + align8 (tagSize memory (header s))
  size_ge : ∀ p, goes p → 8#32 ≤ tagSize memory p

section Walk
variable {σ ρ : Type} {memory : U32 → U8} {base total : U32} {goes : U32 → Prop} {header : σ → U32}
  {L : WhileLoop σ ρ} {s₀ : σ}

/-- The span of a tag at an address is its size rounded up. -/
theorem tagSpan_toNat (p : U32) : tagSpan memory p.toNat = padded (tagSize memory p).toNat := by
  rw [tagSpan, BitVec.ofNat_toNat, BitVec.setWidth_eq]

/-- A tag is passed over when its header lies inside and the walk goes on. -/
theorem passes_toNat {p : U32} :
    Passes base total goes p.toNat ↔ p.toNat + 8 ≤ base.toNat + total.toNat ∧ goes p := by
  rw [Passes, BitVec.ofNat_toNat, BitVec.setWidth_eq]

/-- The chain starts behind the head of the information. -/
theorem OnChain.base_le {a : ℕ} (h : OnChain memory base total goes a) : base.toNat + 8 ≤ a := by
  induction h with
  | refl => exact le_rfl
  | tail _ h ih => exact h.2 ▸ ih.trans (Nat.le_add_right ..)

/-- The headers ascend when each one that is entered lies above the one before it. -/
theorem ascends_iff :
    Ascends header (fun n => L.run n s₀) ↔
      ∀ s s', L.Comes s₀ s → L.Next s s' → L.test s' = true → header s < header s' :=
  haveI : IsTrans σ fun s t => header s < header t := ⟨fun _ _ _ => BitVec.lt_trans⟩
  WhileLoop.pairwise_entered_iff

variable (hW : WalksTags memory (base + total) goes header L)
  (hfits : base.toNat + total.toNat < 2 ^ 32) (hs₀ : (header s₀).toNat = base.toNat + 8)
include hW hfits

/-- The test of a loop, when the address it forms does not wrap. -/
theorem WalksTags.test_iff_of_lt {s : σ} (h : (header s).toNat + 8 < 2 ^ 32) :
    L.test s = true ↔ (header s).toNat + 8 ≤ base.toNat + total.toNat := by
  rw [hW.test_iff, BitVec.le_def, BitVec.toNat_add, BitVec.toNat_add, Nat.mod_eq_of_lt hfits]
  rw [show (8#32).toNat = 8 from rfl, Nat.mod_eq_of_lt h]

omit hfits in
/-- Where a loop goes on. -/
theorem WalksTags.next_toNat {s s' : σ} (h : L.Next s s') :
    (header s').toNat = ((header s).toNat + tagSpan memory (header s).toNat) % 2 ^ 32 := by
  rw [(hW.goes_of_next s s' h).2, toNat_add_align8, tagSpan_toNat]

omit hfits in
/-- A tag that a loop passes over takes at least its header. -/
theorem WalksTags.le_tagSpan {s s' : σ} (h : L.Next s s') :
    8 ≤ tagSpan memory (header s).toNat := by
  rw [tagSpan_toNat]
  exact (BitVec.le_def.mp (hW.size_ge _ (hW.goes_of_next s s' h).1)).trans (le_padded _)

include hs₀

/-- **Without wrapping a loop follows the chain.** -/
theorem WalksTags.onChain (hfirst : base.toNat + 16 < 2 ^ 32)
    (hno : NoWrap memory base total goes) {s : σ} (hc : L.Comes s₀ s) :
    OnChain memory base total goes (header s).toNat ∧ (header s).toNat + 8 < 2 ^ 32 := by
  refine hc.invariant (I := fun s => OnChain memory base total goes (header s).toNat ∧
    (header s).toNat + 8 < 2 ^ 32) ⟨hs₀ ▸ .refl, by omega⟩ ?_
  rintro s s' ⟨hon, hlt⟩ hn
  have hpass : Passes base total goes (header s).toNat :=
    passes_toNat.mpr ⟨(hW.test_iff_of_lt hfits hlt).mp hn.1, (hW.goes_of_next s s' hn).1⟩
  have hbound := hno _ hon hpass
  have hnext := hW.next_toNat hn
  rw [Nat.mod_eq_of_lt (by omega)] at hnext
  exact ⟨hnext ▸ hon.tail ⟨hpass, rfl⟩, by omega⟩

/-- Without wrapping each round moves forward, -/
theorem WalksTags.lt_of_next (hfirst : base.toNat + 16 < 2 ^ 32)
    (hno : NoWrap memory base total goes) {s s' : σ} (hc : L.Comes s₀ s) (hn : L.Next s s') :
    header s < header s' := by
  obtain ⟨hon, hlt⟩ := hW.onChain hfits hs₀ hfirst hno hc
  have hbound := hno _ hon
    (passes_toNat.mpr ⟨(hW.test_iff_of_lt hfits hlt).mp hn.1, (hW.goes_of_next s s' hn).1⟩)
  have hnext := hW.next_toNat hn
  have hsize := hW.le_tagSpan hn
  rw [Nat.mod_eq_of_lt (by omega)] at hnext
  rw [BitVec.lt_def]
  omega

/-- so the loop ends, and the headers that it reads lie in the information. -/
theorem WalksTags.safe_of_noWrap (hfirst : base.toNat + 16 < 2 ^ 32)
    (hno : NoWrap memory base total goes) :
    (∃ n r, (L.run n s₀).result = some r) ∧
      (∀ n, ∀ s ∈ (L.run n s₀).entered, Inside base total (header s) 8) ∧
      Ascends header fun n => L.run n s₀ := by
  have hforward : ∀ s s', L.Comes s₀ s → L.Next s s' → header s < header s' := fun s s' =>
    hW.lt_of_next hfits hs₀ hfirst hno
  refine ⟨?_, fun n s hs => ?_, ascends_iff.mpr fun s s' hc hn _ => hforward s s' hc hn⟩
  · obtain ⟨r, hr⟩ := WhileLoop.exists_result_of_measure (I := L.Comes s₀) (s := s₀)
      (fun s => 2 ^ 32 - (header s).toNat) .refl fun s s' hc hn => by
        have hlt := BitVec.lt_def.mp (hforward s s' hc hn)
        have hisLt := (header s').isLt
        exact ⟨hc.tail hn, by omega⟩
    exact ⟨_, r, hr⟩
  · obtain ⟨hc, ht⟩ := WhileLoop.exists_mem_entered_iff.mp ⟨n, hs⟩
    obtain ⟨hon, hlt⟩ := hW.onChain hfits hs₀ hfirst hno hc
    exact ⟨by have := hon.base_le; omega, (hW.test_iff_of_lt hfits hlt).mp ht⟩

omit hs₀ in
/-- **A sum that wraps leads out of the information or back**: if neither happens, there are eight more
addresses behind a tag. -/
theorem WalksTags.lt_of_safe {s : σ}
    (hsafe : ∀ t, L.Comes s t → L.test t = true → Inside base total (header t) 8)
    (hasc : ∀ t, L.Next s t → L.test t = true → header s < header t)
    (hpass : Passes base total goes (header s).toNat) :
    (header s).toNat + tagSpan memory (header s).toNat + 8 < 2 ^ 32 := by
  obtain ⟨hend, hgoes⟩ := passes_toNat.mp hpass
  have ht : L.test s = true := (hW.test_iff_of_lt hfits (by omega)).mpr hend
  obtain ⟨s', hn⟩ := hW.next_of_goes s ht hgoes
  have hnext := hW.next_toNat hn
  have hbytes : tagSpan memory (header s).toNat ≤ 2 ^ 32 := by
    rw [tagSpan_toNat]
    have := (tagSize memory (header s)).isLt
    unfold padded
    omega
  by_contra hover
  -- the test is passed at the wrapped address
  have ht' : L.test s' = true := by
    rw [hW.test_iff, BitVec.le_def, BitVec.toNat_add, BitVec.toNat_add, Nat.mod_eq_of_lt hfits, hnext,
      show (8#32).toNat = 8 from rfl]
    omega
  have hinside := hsafe s' (.single hn) ht'
  have hlt := BitVec.lt_def.mp (hasc s' hn ht')
  have := hinside.2
  omega

/-- **A safe walk that moves forward does not wrap**, and comes to every tag of the chain. -/
theorem WalksTags.noWrap_of_safe
    (hinside : ∀ n, ∀ s ∈ (L.run n s₀).entered, Inside base total (header s) 8)
    (hascends : Ascends header fun n => L.run n s₀) :
    NoWrap memory base total goes ∧
      ∀ a, OnChain memory base total goes a → ∃ s, L.Comes s₀ s ∧ (header s).toNat = a := by
  have hasc := ascends_iff.mp hascends
  have hsafe : ∀ s, L.Comes s₀ s → L.test s = true → Inside base total (header s) 8 := by
    intro s hc ht
    obtain ⟨n, hn⟩ := WhileLoop.exists_mem_entered_iff.mpr ⟨hc, ht⟩
    exact hinside n s hn
  have hstep : ∀ s, L.Comes s₀ s → Passes base total goes (header s).toNat →
      (header s).toNat + tagSpan memory (header s).toNat + 8 < 2 ^ 32 := fun s hc =>
    hW.lt_of_safe hfits (fun t hct => hsafe t (hc.trans hct)) fun t => hasc s t hc
  have hcomes : ∀ a, OnChain memory base total goes a → ∃ s, L.Comes s₀ s ∧ (header s).toNat = a := by
    intro a hon
    induction hon with
    | refl => exact ⟨s₀, .refl, hs₀⟩
    | tail _ h ih =>
      obtain ⟨s, hc, rfl⟩ := ih
      obtain ⟨hpass, rfl⟩ := h
      have hbound := hstep s hc hpass
      obtain ⟨hend, hgoes⟩ := passes_toNat.mp hpass
      obtain ⟨s', hn⟩ := hW.next_of_goes s ((hW.test_iff_of_lt hfits (by omega)).mpr hend) hgoes
      refine ⟨s', hc.tail hn, ?_⟩
      rw [hW.next_toNat hn, Nat.mod_eq_of_lt (by omega)]
  refine ⟨fun a hon hpass => ?_, hcomes⟩
  obtain ⟨s, hc, rfl⟩ := hcomes a hon
  exact hstep s hc hpass

end Walk

/-! ### The loops that look for a tag -/

section Find
variable (memory : U32 → U8) (stop want : U32)

/-- The tests that a tag passes before its type is compared. -/
def FindChecks (p : U32) : Prop :=
  ¬ (tagType memory p = 0#32 ∧ tagSize memory p = 8#32) ∧ 8#32 ≤ tagSize memory p ∧
    p + tagSize memory p ≤ stop

/-- The loop passes over the tag. -/
def FindGoes (p : U32) : Prop := FindChecks memory stop p ∧ tagType memory p ≠ want

/-- The loop returns the tag. -/
def FindReturns (p : U32) : Prop := FindChecks memory stop p ∧ tagType memory p = want

/-- **No sum of the walk wraps**: neither behind a tag that is passed over nor at the end of the tag that is
returned. -/
structure StaysBelow (base total : U32) : Prop where
  noWrap : NoWrap memory base total (FindGoes memory (base + total) want)
  found_lt : ∀ a, OnChain memory base total (FindGoes memory (base + total) want) a →
    Passes base total (FindReturns memory (base + total) want) a →
    a + (tagSize memory (BitVec.ofNat 32 a)).toNat < 2 ^ 32

variable {memory stop want} {ρ : Type} (notFound invalid : ρ) (ok : U32 → ρ)

/-- One round. -/
theorem mb2FindLoop_cases (p : U32) :
    (FindGoes memory stop want p ∧ (mb2FindLoop notFound invalid ok memory stop want).body p =
      .inr (p + align8 (tagSize memory p))) ∨
    (FindReturns memory stop want p ∧
      (mb2FindLoop notFound invalid ok memory stop want).body p = .inl (ok p)) ∨
    ((mb2FindLoop notFound invalid ok memory stop want).body p = .inl notFound ∨
      (mb2FindLoop notFound invalid ok memory stop want).body p = .inl invalid) ∧
      ¬ FindChecks memory stop p := by
  unfold mb2FindLoop
  dsimp only
  split
  · rename_i hend
    exact .inr (.inr ⟨.inl rfl, fun h => h.1 hend⟩)
  rename_i hend
  split
  · rename_i hsize
    exact .inr (.inr ⟨.inr rfl, fun h => BitVec.not_lt.mpr h.2.1 hsize⟩)
  rename_i hsize
  split
  · rename_i hstop
    exact .inr (.inr ⟨.inr rfl, fun h => BitVec.not_lt.mpr h.2.2 hstop⟩)
  rename_i hstop
  have hchecks : FindChecks memory stop p :=
    ⟨hend, BitVec.not_lt.mp hsize, BitVec.not_lt.mp hstop⟩
  split
  · rename_i hwant
    exact .inr (.inl ⟨⟨hchecks, hwant⟩, rfl⟩)
  · rename_i hwant
    exact .inl ⟨⟨hchecks, hwant⟩, rfl⟩

/-- **`mb2_find_tag` walks the tags**, until it finds the one that is wanted. -/
theorem mb2FindLoop_walksTags :
    WalksTags memory stop (FindGoes memory stop want) id
      (mb2FindLoop notFound invalid ok memory stop want) where
  test_iff p := decide_eq_true_iff
  next_of_goes p ht hgoes := by
    rcases mb2FindLoop_cases notFound invalid ok p with
      ⟨-, h⟩ | ⟨⟨-, h⟩, -⟩ | ⟨-, h⟩
    · exact ⟨_, ht, h⟩
    · exact absurd h hgoes.2
    · exact absurd hgoes.1 h
  goes_of_next p p' hn := by
    rcases mb2FindLoop_cases notFound invalid ok p with ⟨hgoes, h⟩ | ⟨-, h⟩ | ⟨h | h, -⟩
    · exact ⟨hgoes, (Sum.inr.inj (h.symm.trans hn.2)).symm⟩
    all_goals exact absurd (h.symm.trans hn.2) Sum.inl_ne_inr
  size_ge p h := h.1.2.1

variable {returned : ρ → Option U32} (hnotFound : returned notFound = none)
  (hinvalid : returned invalid = none) (hok : ∀ p, returned (ok p) = some p)
include hnotFound hinvalid hok

/-- A tag that the loop ends with is one that it returns. -/
theorem mb2FindLoop_returned {p q : U32} {r : ρ}
    (h : (mb2FindLoop notFound invalid ok memory stop want).Ends p r) (hr : returned r = some q) :
    q = p ∧ p + 8#32 ≤ stop ∧ FindReturns memory stop want p := by
  rcases h with ⟨ht, hb⟩ | ⟨-, rfl⟩
  · rcases mb2FindLoop_cases notFound invalid ok p with ⟨-, h⟩ | ⟨hret, h⟩ | ⟨h | h, -⟩
    · exact absurd (h.symm.trans hb) Sum.inr_ne_inl
    · obtain rfl := Sum.inl.inj (h.symm.trans hb)
      rw [hok, Option.some_inj] at hr
      exact ⟨hr.symm, of_decide_eq_true ht, hret⟩
    · obtain rfl := Sum.inl.inj (h.symm.trans hb)
      exact absurd (hnotFound.symm.trans hr) (Option.some_ne_none q).symm
    · obtain rfl := Sum.inl.inj (h.symm.trans hb)
      exact absurd (hinvalid.symm.trans hr) (Option.some_ne_none q).symm
  · exact absurd (hnotFound.symm.trans hr) (Option.some_ne_none q).symm

/-- **A loop that looks for a tag walks safely and forward exactly when no sum wraps.** -/
theorem mb2FindLoop_safe_iff {base total : U32} (hfits : base.toNat + total.toNat < 2 ^ 32)
    (htotal : 16#32 ≤ total) :
    (SafeWalk memory base total id returned
        (fun n => (mb2FindLoop notFound invalid ok memory (base + total) want).run n (base + 8#32)) ∧
      Ascends id
        fun n => (mb2FindLoop notFound invalid ok memory (base + total) want).run n (base + 8#32)) ↔
      StaysBelow memory want base total := by
  have hW : WalksTags memory (base + total) (FindGoes memory (base + total) want) id
      (mb2FindLoop notFound invalid ok memory (base + total) want) :=
    mb2FindLoop_walksTags notFound invalid ok
  have hge : 16 ≤ total.toNat := BitVec.le_def.mp htotal
  have hs₀ : (base + 8#32).toNat = base.toNat + 8 := by
    rw [BitVec.toNat_add, show (8#32).toNat = 8 from rfl]
    omega
  constructor
  · rintro ⟨hsafe, hasc⟩
    obtain ⟨hno, hcomes⟩ := hW.noWrap_of_safe hfits hs₀ hsafe.header_inside hasc
    refine ⟨hno, fun a hon hpass => ?_⟩
    obtain ⟨p, hc, rfl⟩ := hcomes a hon
    obtain ⟨hend, hret⟩ := passes_toNat.mp hpass
    have hbody : (mb2FindLoop notFound invalid ok memory (base + total) want).body p = .inl (ok p) := by
      rcases mb2FindLoop_cases notFound invalid ok p with ⟨h, -⟩ | ⟨-, h⟩ | ⟨-, h⟩
      · exact absurd hret.2 h.2
      · exact h
      · exact absurd hret.1 h
    have ht := (hW.test_iff_of_lt hfits (s := p) (by exact hend.trans_lt hfits)).mpr hend
    obtain ⟨n, hn⟩ := WhileLoop.exists_result_iff.mpr ⟨p, hc, .inl ⟨ht, hbody⟩⟩
    have hinside := (hsafe.tag_inside n _ p hn (hok p)).2
    rw [BitVec.ofNat_toNat, BitVec.setWidth_eq]
    exact hinside.trans_lt hfits
  · rintro ⟨hno, hfound⟩
    obtain ⟨hends, hinside, hasc⟩ := hW.safe_of_noWrap hfits hs₀ (by omega) hno
    refine ⟨⟨hends, hinside, fun n r q hr hq => ?_⟩, hasc⟩
    obtain ⟨p, hc, he⟩ := WhileLoop.exists_result_iff.mp ⟨n, hr⟩
    obtain ⟨rfl, htest, hret⟩ := mb2FindLoop_returned notFound invalid ok hnotFound hinvalid hok he hq
    obtain ⟨hon, hlt⟩ := hW.onChain hfits hs₀ (by omega) hno hc
    have hend := (hW.test_iff_of_lt hfits hlt).mp (decide_eq_true htest)
    have hbound := hfound _ hon (passes_toNat.mpr ⟨hend, hret⟩)
    rw [id, BitVec.ofNat_toNat, BitVec.setWidth_eq] at hbound
    have hstop := BitVec.le_def.mp hret.1.2.2
    rw [BitVec.toNat_add, BitVec.toNat_add, Nat.mod_eq_of_lt hbound, Nat.mod_eq_of_lt hfits] at hstop
    exact ⟨by have := hon.base_le; exact (Nat.le_add_right ..).trans this, hstop⟩

end Find

/-- A walk that returns at once. -/
theorem SafeWalk.of_rejects {ρ : Type} {memory : U32 → U8} {base total : U32}
    {returned : ρ → Option U32} {r : ρ} (hr : returned r = none) :
    SafeWalk memory base total id returned (fun _ => ⟨[], some r⟩) ∧
      Ascends id fun _ : ℕ => (⟨[], some r⟩ : Rounds U32 ρ) where
  left :=
    { ends := ⟨0, r, rfl⟩
      header_inside := fun _ _ h => absurd h List.not_mem_nil
      tag_inside := by
        rintro _ r' p h hp
        obtain rfl := Option.some.inj h
        exact absurd (hr.symm.trans hp) (Option.some_ne_none p).symm }
  right := fun _ => .nil

/-- The same with the checks in front of the loop. -/
theorem mb2Find_safe_iff {ρ : Type} (notFound invalid : ρ) (ok : U32 → ρ) {returned : ρ → Option U32}
    (hnotFound : returned notFound = none) (hinvalid : returned invalid = none)
    (hok : ∀ p, returned (ok p) = some p) {memory : U32 → U8} {base total want : U32}
    (hfits : base.toNat + total.toNat < 2 ^ 32) {walk : ℕ → Rounds U32 ρ}
    (hwalk : walk = fun n =>
      if base = 0#32 ∨ total < 16#32 then ⟨[], some invalid⟩
      else (mb2FindLoop notFound invalid ok memory (base + total) want).run n (base + 8#32)) :
    (SafeWalk memory base total id returned walk ∧ Ascends id walk) ↔
      (base ≠ 0#32 → 16#32 ≤ total → StaysBelow memory want base total) := by
  subst hwalk
  by_cases hguard : base = 0#32 ∨ total < 16#32
  · simp only [if_pos hguard]
    exact iff_of_true (SafeWalk.of_rejects hinvalid) fun hbase htotal =>
      (hguard.elim hbase (BitVec.not_lt.mpr htotal)).elim
  · simp only [if_neg hguard]
    rw [not_or, BitVec.not_lt] at hguard
    refine (mb2FindLoop_safe_iff notFound invalid ok hnotFound hinvalid hok hfits hguard.2).trans ?_
    exact ⟨fun h _ _ => h, fun h => h hguard.1 hguard.2⟩

/-! ### The loop that prints the tags -/

/-- `mb2_dump_tags` passes over the tag. -/
def DumpGoes (memory : U32 → U8) (p : U32) : Prop :=
  ¬ (tagType memory p = 0#32 ∧ tagSize memory p = 8#32) ∧ 8#32 ≤ tagSize memory p

section Dump
variable {memory : U32 → U8} {stop : U32}

/-- **`mb2_dump_tags` walks the tags**, until the end tag. -/
theorem mb2DumpLoop_walksTags :
    WalksTags memory stop (DumpGoes memory) Prod.fst (mb2DumpLoop memory stop) where
  test_iff p := decide_eq_true_iff
  next_of_goes s ht hgoes := by
    have hb : (mb2DumpLoop memory stop).body s = .inr (s.1 + align8 (tagSize memory s.1),
        s.2 ++ [.tag (tagType memory s.1) (tagSize memory s.1)]) := by
      unfold mb2DumpLoop
      dsimp only
      rw [if_neg hgoes.1, if_neg (BitVec.not_lt.mpr hgoes.2)]
    exact ⟨_, ht, hb⟩
  goes_of_next s s' hn := by
    have hb := hn.2
    unfold mb2DumpLoop at hb
    dsimp only at hb
    split at hb
    · exact absurd hb Sum.inl_ne_inr
    rename_i hend
    split at hb
    · exact absurd hb Sum.inl_ne_inr
    rename_i hsize
    exact ⟨⟨hend, BitVec.not_lt.mp hsize⟩, by rw [← Sum.inr.inj hb]⟩
  size_ge p h := h.2

/-- **`mb2_dump_tags` walks safely and forward exactly when no sum wraps**, its first one included: it does
not compare a tag with the end, and takes any total size. -/
theorem mb2DumpTags_safe_iff {base total : U32} (hfits : base.toNat + total.toNat < 2 ^ 32)
    (htotal : load32 memory base = total) :
    (SafeWalk memory base total Prod.fst (fun _ => none) (mb2DumpTags memory base) ∧
      Ascends Prod.fst (mb2DumpTags memory base)) ↔
      base.toNat + 16 < 2 ^ 32 ∧ NoWrap memory base total (DumpGoes memory) := by
  subst htotal
  have hW : WalksTags memory (base + load32 memory base) (DumpGoes memory) Prod.fst
      (mb2DumpLoop memory (base + load32 memory base)) := mb2DumpLoop_walksTags
  have hs₀ : base.toNat + 16 < 2 ^ 32 → (base + 8#32).toNat = base.toNat + 8 := by
    intro h
    rw [BitVec.toNat_add, show (8#32).toNat = 8 from rfl]
    omega
  constructor
  · rintro ⟨hsafe, hasc⟩
    have hfirst : base.toNat + 16 < 2 ^ 32 := by
      by_contra hover
      -- the test is passed at the first address
      have ht : (mb2DumpLoop memory (base + load32 memory base)).test
          (base + 8#32, [.info base (load32 memory base)]) = true := by
        rw [hW.test_iff, BitVec.le_def, BitVec.toNat_add, BitVec.toNat_add, BitVec.toNat_add,
          Nat.mod_eq_of_lt hfits, show (8#32).toNat = 8 from rfl]
        omega
      obtain ⟨n, hn⟩ := WhileLoop.exists_mem_entered_iff.mpr ⟨.refl, ht⟩
      have hinside := hsafe.header_inside n _ hn
      unfold Inside at hinside
      rw [BitVec.toNat_add, show (8#32).toNat = 8 from rfl] at hinside
      omega
    exact ⟨hfirst, (hW.noWrap_of_safe hfits (hs₀ hfirst) hsafe.header_inside hasc).1⟩
  · rintro ⟨hfirst, hno⟩
    have hs : (Prod.fst (base + 8#32, [Mb2Line.info base (load32 memory base)])).toNat =
        base.toNat + 8 := hs₀ hfirst
    obtain ⟨hends, hinside, hasc⟩ := hW.safe_of_noWrap hfits hs hfirst hno
    exact ⟨⟨hends, hinside, fun _ _ _ _ h => absurd h (Option.some_ne_none _).symm⟩, hasc⟩

end Dump

/-! ### The three walkers -/

/-- The tag of a result of `mb2_find_tag`. -/
def Mb2FindResult.tag : Mb2FindResult → Option U32
  | ok p => some p
  | _ => none

/-- **The walkers are safe as long as no sum wraps.** For every memory: if no address that is formed along the
chain of tags reaches `2 ^ 32`, the walk ends, reads headers inside the information only and returns a tag
inside it; and only then does it so moving forward. -/
theorem mb2Walkers_safe_iff (memory : U32 → U8) (base total : U32)
    (hfits : base.toNat + total.toNat < 2 ^ 32) :
    (∀ want,
      SafeWalk memory base total id Mb2FindResult.tag (mb2FindTag memory base total want) ∧
          Ascends id (mb2FindTag memory base total want) ↔
        (base ≠ 0#32 → 16#32 ≤ total → StaysBelow memory want base total)) ∧
    (SafeWalk memory base total id id (mb2FindMmap memory base total) ∧
        Ascends id (mb2FindMmap memory base total) ↔
      (base ≠ 0#32 → 16#32 ≤ total → StaysBelow memory 6#32 base total)) ∧
    (load32 memory base = total →
      (SafeWalk memory base total Prod.fst (fun _ => none) (mb2DumpTags memory base) ∧
          Ascends Prod.fst (mb2DumpTags memory base) ↔
        base.toNat + 16 < 2 ^ 32 ∧ NoWrap memory base total (DumpGoes memory))) := by
  exact ⟨fun want => mb2Find_safe_iff .notFound .invalid .ok rfl rfl (fun _ => rfl) hfits rfl,
    mb2Find_safe_iff none none some rfl rfl (fun _ => rfl) hfits rfl, mb2DumpTags_safe_iff hfits⟩

/-- Boot information of 40 bytes at `0x1000`: a tag of eleven bytes with its padding, an empty memory map,
and the end tag. -/
def nameThenMap : U32 → U8 := fun a =>
  if a = 0x1000#32 then 40#8 else if a = 0x1008#32 then 1#8 else if a = 0x100C#32 then 11#8
  else if a = 0x1018#32 then 6#8 else if a = 0x101C#32 then 8#8 else if a = 0x1024#32 then 8#8 else 0#8

/-- The search for the memory map passes over the first tag of it. -/
theorem nameThenMap_staysBelow : StaysBelow nameThenMap 6#32 0x1000#32 40#32 := by
  have hchain : ∀ a, OnChain nameThenMap 0x1000#32 40#32
      (FindGoes nameThenMap (0x1000#32 + 40#32) 6#32) a → a ∈ [0x1008, 0x1018] := by
    refine fun a => OnChain.mem_of_closed (by decide) fun a ha hpass => ?_
    rcases List.mem_pair.mp ha with rfl | rfl
    · decide
    · exact absurd (show tagType nameThenMap 0x1018#32 = 6#32 by decide) hpass.2.2
  constructor
  · intro a hon _
    rcases List.mem_pair.mp (hchain a hon) with rfl | rfl <;> decide
  · intro a hon _
    rcases List.mem_pair.mp (hchain a hon) with rfl | rfl <;> decide

/-- The dump passes over both tags of it. -/
theorem nameThenMap_noWrap : NoWrap nameThenMap 0x1000#32 40#32 (DumpGoes nameThenMap) := by
  have hchain : ∀ a, OnChain nameThenMap 0x1000#32 40#32 (DumpGoes nameThenMap) a →
      a ∈ [0x1008, 0x1018, 0x1020] := by
    refine fun a => OnChain.mem_of_closed (by decide) fun a ha hpass => ?_
    rcases List.mem_cons.mp ha with rfl | ha
    · decide
    rcases List.mem_pair.mp ha with rfl | rfl
    · decide
    · exact absurd (show tagType nameThenMap 0x1020#32 = 0#32 ∧ tagSize nameThenMap 0x1020#32 = 8#32 by
        decide) hpass.2.1
  intro a hon _
  rcases List.mem_cons.mp (hchain a hon) with rfl | ha
  · decide
  rcases List.mem_pair.mp ha with rfl | rfl <;> decide

/-- The walks over it: the memory map is found behind the first tag by both searches, and the dump comes to
the end tag. -/
theorem mb2Walkers_safe_nameThenMap :
    (mb2FindTag nameThenMap 0x1000#32 40#32 6#32 3).result = some (.ok 0x1018#32) ∧
    SafeWalk nameThenMap 0x1000#32 40#32 id Mb2FindResult.tag
      (mb2FindTag nameThenMap 0x1000#32 40#32 6#32) ∧
    SafeWalk nameThenMap 0x1000#32 40#32 id id (mb2FindMmap nameThenMap 0x1000#32 40#32) ∧
    SafeWalk nameThenMap 0x1000#32 40#32 Prod.fst (fun _ => none) (mb2DumpTags nameThenMap 0x1000#32) := by
  obtain ⟨hfind, hmmap, hdump⟩ := mb2Walkers_safe_iff nameThenMap 0x1000#32 40#32 (by decide)
  exact ⟨by decide, ((hfind 6#32).mpr fun _ _ => nameThenMap_staysBelow).1,
    (hmmap.mpr fun _ _ => nameThenMap_staysBelow).1,
    ((hdump (by decide)).mpr ⟨by decide, nameThenMap_noWrap⟩).1⟩

/-- Boot information of 24 bytes at `0x1000` whose first tag has the size `0xFFFFFFFF`. -/
def hugeTag : U32 → U8 := fun a =>
  if a = 0x1000#32 then 24#8 else if a = 0x1008#32 then 1#8
  else if 0x100C#32 ≤ a ∧ a ≤ 0x100F#32 then 0xFF#8 else 0#8

/-- The size is rounded up to zero: a loop that looks for a memory map stays at the tag. -/
theorem hugeTag_endless {ρ : Type} (notFound invalid : ρ) (ok : U32 → ρ) (n : ℕ) :
    ((mb2FindLoop notFound invalid ok hugeTag (0x1000#32 + 24#32) 6#32).run n 0x1008#32).result =
      none := by
  refine WhileLoop.result_eq_none_of_next (I := (· = 0x1008#32)) rfl ?_ n
  rintro _ rfl
  exact ⟨0x1008#32, ⟨rfl, rfl⟩, rfl⟩

/-- No walker ever ends. -/
theorem mb2Walkers_endless :
    (0x1000#32).toNat + (24#32).toNat < 2 ^ 32 ∧ load32 hugeTag 0x1000#32 = 24#32 ∧
      ¬ SafeWalk hugeTag 0x1000#32 24#32 id Mb2FindResult.tag (mb2FindTag hugeTag 0x1000#32 24#32 6#32) ∧
      ¬ SafeWalk hugeTag 0x1000#32 24#32 id id (mb2FindMmap hugeTag 0x1000#32 24#32) ∧
      ¬ SafeWalk hugeTag 0x1000#32 24#32 Prod.fst (fun _ => none) (mb2DumpTags hugeTag 0x1000#32) := by
  refine ⟨by decide, by decide, fun h => ?_, fun h => ?_, fun h => ?_⟩
  · obtain ⟨n, r, hr⟩ := h.ends
    exact absurd ((hugeTag_endless _ _ _ n).symm.trans hr) (Option.some_ne_none r).symm
  · obtain ⟨n, r, hr⟩ := h.ends
    exact absurd ((hugeTag_endless _ _ _ n).symm.trans hr) (Option.some_ne_none r).symm
  · obtain ⟨n, r, hr⟩ := h.ends
    have hnone : (mb2DumpTags hugeTag 0x1000#32 n).result = none := by
      refine WhileLoop.result_eq_none_of_next (I := (·.1 = 0x1008#32)) rfl ?_ n
      rintro ⟨_, printed⟩ rfl
      have hgoes : DumpGoes hugeTag 0x1008#32 := ⟨by decide, by decide⟩
      have htest : 0x1008#32 + 8#32 ≤ 0x1000#32 + load32 hugeTag 0x1000#32 := by decide
      obtain ⟨s', hn⟩ := mb2DumpLoop_walksTags.next_of_goes (0x1008#32, printed)
        (decide_eq_true htest) hgoes
      have hstay : 0x1008#32 + align8 (tagSize hugeTag 0x1008#32) = 0x1008#32 := by decide
      exact ⟨s', hn, (mb2DumpLoop_walksTags.goes_of_next _ _ hn).2.trans hstay⟩
    exact absurd (hnone.symm.trans hr) (Option.some_ne_none r).symm

end Microkernel.Boot
