import Microkernel.Boot.TagWalk

/-! # Tags as the format lays them out

A header of eight bytes, tags padded to eight bytes each, and the end tag. Over such bytes the loops stay in
step with the tags, whatever is in the payloads and the padding.

* **`Mb2Tag`, `Mb2Info`** — such information as data: what a tag holds, and the tags in front of the end
  tag.
* **`LiesAt`** — its bytes are in memory at an address, and its end has an address too.
* **`run_of_holdsAt`** — the induction over the tags: a loop that passes over the first of them goes on at
  the second.
* **`mb2FindTag_first`** — the first tag of the wanted type is returned, and not found is returned when
  there is none.
-/

namespace Microkernel.Boot

/-- A tag: its type, what follows its header, and the padding behind it. -/
structure Mb2Tag where
  type : U32
  payload : List U8
  padding : List U8
  length_padding : (8 + payload.length) + padding.length = padded (8 + payload.length)

namespace Mb2Tag

/-- The value of the field `size`, which does not count the padding. -/
def size (t : Mb2Tag) : ℕ := 8 + t.payload.length

/-- The bytes of a tag: type, size, contents, and zeros up to a multiple of 8. -/
def bytes (t : Mb2Tag) : List U8 :=
  bytesOf32 t.type ++ (bytesOf32 (BitVec.ofNat 32 t.size) ++ (t.payload ++ t.padding))

/-- The tag that closes the list. -/
def endTag : Mb2Tag := ⟨0#32, [], [], rfl⟩

/-- A tag takes its size rounded up. -/
theorem length_bytes (t : Mb2Tag) : t.bytes.length = padded t.size := by
  have := t.length_padding
  simp only [bytes, List.length_append, length_bytesOf32, size]
  omega

/-- The fields of a tag in memory. -/
theorem fields_of_holdsAt {t : Mb2Tag} {memory : U32 → U8} {p : U32} (h : HoldsAt memory p t.bytes) :
    tagType memory p = t.type ∧ tagSize memory p = BitVec.ofNat 32 t.size :=
  ⟨h.append_left.load32_eq, h.append_right.append_left.load32_eq⟩

end Mb2Tag

/-- Multiboot2 information: the reserved word of its header and the tags in front of the end tag. -/
structure Mb2Info where
  reserved : U32
  tags : List Mb2Tag
  not_end : ∀ t ∈ tags, ¬ (t.type = 0#32 ∧ t.size = 8)

namespace Mb2Info

/-- The bytes of a list of tags. -/
def tagBytes (tags : List Mb2Tag) : List U8 := tags.flatMap Mb2Tag.bytes

/-- The size of the information: its head, the tags and the end tag. -/
def totalSize (info : Mb2Info) : ℕ := 8 + (tagBytes info.tags).length + 8

/-- The bytes of the information. -/
def bytes (info : Mb2Info) : List U8 :=
  bytesOf32 (BitVec.ofNat 32 info.totalSize) ++ bytesOf32 info.reserved ++
    (tagBytes info.tags ++ Mb2Tag.endTag.bytes)

/-- The information lies at an address, and its end has one too. -/
structure LiesAt (info : Mb2Info) (memory : U32 → U8) (base : U32) : Prop where
  ne_null : base ≠ 0#32
  fits : base.toNat + info.totalSize < 2 ^ 32
  holds : HoldsAt memory base info.bytes

/-- The address behind the header and some tags. -/
def addressBehind (base : U32) (tags : List Mb2Tag) : U32 :=
  base + 8#32 + BitVec.ofNat 32 (tagBytes tags).length

end Mb2Info

open Mb2Info (tagBytes addressBehind)

section Loop
variable {ρ : Type} {notFound invalid : ρ} {ok : U32 → ρ} {memory : U32 → U8} {stop want p : U32}
  {t : Mb2Tag}

/-- A number up to an address is a word. -/
theorem toNat_ofNat_of_le {n : ℕ} {a : U32} (h : n ≤ a.toNat) : (BitVec.ofNat 32 n).toNat = n := by
  rw [BitVec.toNat_ofNat, Nat.mod_eq_of_lt (h.trans_lt a.isLt)]

/-- A tag in front of the end passes the checks, unless it is the end tag. -/
theorem findChecks_of_holdsAt (hmem : HoldsAt memory p t.bytes)
    (hnot : ¬ (t.type = 0#32 ∧ t.size = 8)) (hfits : p.toNat + t.bytes.length ≤ stop.toNat) :
    FindChecks memory stop p := by
  obtain ⟨htype, hsize⟩ := Mb2Tag.fields_of_holdsAt hmem
  have hle := le_padded t.size
  rw [Mb2Tag.length_bytes] at hfits
  have hnat : (BitVec.ofNat 32 t.size).toNat = t.size := toNat_ofNat_of_le (a := stop) (by omega)
  have hge : 8 ≤ t.size := Nat.le_add_right ..
  rw [FindChecks, htype, hsize]
  refine ⟨fun h => hnot ⟨h.1, ?_⟩, ?_, ?_⟩
  · rw [← hnat, h.2]
    rfl
  · rw [BitVec.le_def, hnat]
    exact hge
  · rw [BitVec.le_def, BitVec.toNat_add, hnat]
    omega

/-- The test in front of a tag. -/
theorem test_of_fits (hfits : p.toNat + t.bytes.length ≤ stop.toNat) :
    (mb2FindLoop notFound invalid ok memory stop want).test p = true := by
  have hle := le_padded t.size
  rw [Mb2Tag.length_bytes] at hfits
  have hge : 8 ≤ t.size := Nat.le_add_right ..
  refine decide_eq_true ?_
  rw [BitVec.le_def, BitVec.toNat_add, show (8#32).toNat = 8 from rfl]
  omega

/-- The loop passes over a tag of another type, to the byte behind its padding. -/
theorem next_of_holdsAt (hmem : HoldsAt memory p t.bytes) (hnot : ¬ (t.type = 0#32 ∧ t.size = 8))
    (hfits : p.toNat + t.bytes.length ≤ stop.toNat) (hwant : t.type ≠ want) :
    (mb2FindLoop notFound invalid ok memory stop want).Next p
      (p + BitVec.ofNat 32 t.bytes.length) := by
  obtain ⟨htype, hsize⟩ := Mb2Tag.fields_of_holdsAt hmem
  have hgoes : FindGoes memory stop want p :=
    ⟨findChecks_of_holdsAt hmem hnot hfits, by rwa [htype]⟩
  obtain ⟨p', hn⟩ := (mb2FindLoop_walksTags notFound invalid ok).next_of_goes p (test_of_fits hfits) hgoes
  have hp' := ((mb2FindLoop_walksTags notFound invalid ok).goes_of_next p p' hn).2
  -- the padded size is the number of bytes of the tag
  have hround : align8 (tagSize memory p) = BitVec.ofNat 32 t.bytes.length := by
    have hle := le_padded t.size
    rw [Mb2Tag.length_bytes] at hfits
    rw [← BitVec.toNat_inj, align8_toNat, hsize, toNat_ofNat_of_le (a := stop) (by omega),
      Mb2Tag.length_bytes, BitVec.toNat_ofNat]
  rw [id, id, hround] at hp'
  exact hp' ▸ hn

/-- **The loop stays in step with the tags**: it passes over those of other types. -/
theorem run_of_holdsAt {rest : List U8} (tags : List Mb2Tag) (hmem : HoldsAt memory p (tagBytes tags ++ rest))
    (hnot : ∀ t ∈ tags, ¬ (t.type = 0#32 ∧ t.size = 8))
    (hfits : p.toNat + (tagBytes tags).length ≤ stop.toNat) (hwant : ∀ t ∈ tags, t.type ≠ want) (n : ℕ) :
    ((mb2FindLoop notFound invalid ok memory stop want).run (tags.length + n) p).result =
      ((mb2FindLoop notFound invalid ok memory stop want).run n
        (p + BitVec.ofNat 32 (tagBytes tags).length)).result := by
  induction tags generalizing p with
  | nil =>
    rw [List.length_nil, Nat.zero_add, tagBytes, List.flatMap_nil, List.length_nil]
    exact congrArg (fun q => (WhileLoop.run _ n q).result) (BitVec.add_zero p).symm
  | cons t tags ih =>
    obtain ⟨hnt, hnts⟩ := List.forall_mem_cons.mp hnot
    obtain ⟨hwt, hwts⟩ := List.forall_mem_cons.mp hwant
    have hcons : tagBytes (t :: tags) = t.bytes ++ tagBytes tags := List.flatMap_cons
    rw [hcons, List.append_assoc] at hmem
    rw [hcons, List.length_append] at hfits
    have hnat : (p + BitVec.ofNat 32 t.bytes.length).toNat = p.toNat + t.bytes.length := by
      rw [BitVec.toNat_add, toNat_ofNat_of_le (a := stop) (by omega)]
      exact Nat.mod_eq_of_lt (by have := stop.isLt; omega)
    rw [List.length_cons, Nat.add_right_comm,
      WhileLoop.run_next (next_of_holdsAt hmem.append_left hnt (by omega) hwt),
      ih hmem.append_right hnts (by omega) hwts, hcons, List.length_append, BitVec.ofNat_add,
      BitVec.add_assoc]

end Loop

/-! ### The information -/

section Layout
variable {info : Mb2Info} {memory : U32 → U8} {base want : U32}

/-- Where the parts of the information lie. -/
theorem Mb2Info.LiesAt.holds_append (h : info.LiesAt memory base) {before after : List Mb2Tag}
    (hsplit : info.tags = before ++ after) :
    HoldsAt memory (base + 8#32) (tagBytes before ++ (tagBytes after ++ Mb2Tag.endTag.bytes)) ∧
      HoldsAt memory (addressBehind base before) (tagBytes after ++ Mb2Tag.endTag.bytes) := by
  have htags : HoldsAt memory (base + 8#32) (tagBytes info.tags ++ Mb2Tag.endTag.bytes) :=
    h.holds.append_right
  rw [hsplit, tagBytes, List.flatMap_append, List.append_assoc] at htags
  exact ⟨htags, htags.append_right⟩

/-- The size of information that lies in memory is a word. -/
theorem Mb2Info.LiesAt.toNat_totalSize (h : info.LiesAt memory base) :
    (BitVec.ofNat 32 info.totalSize).toNat = info.totalSize := by
  have := h.fits
  rw [BitVec.toNat_ofNat]
  omega

/-- Its end does not wrap. -/
theorem Mb2Info.LiesAt.toNat_stop (h : info.LiesAt memory base) :
    (base + BitVec.ofNat 32 info.totalSize).toNat = base.toNat + info.totalSize := by
  rw [BitVec.toNat_add, h.toNat_totalSize, Nat.mod_eq_of_lt h.fits]

/-- The address behind some of the tags does not wrap. -/
theorem Mb2Info.LiesAt.toNat_addressBehind (h : info.LiesAt memory base) {before after : List Mb2Tag}
    (hsplit : info.tags = before ++ after) :
    (addressBehind base before).toNat + (tagBytes after).length + 8 =
      base.toNat + info.totalSize := by
  have hfits := h.fits
  have hlen : (tagBytes info.tags).length = (tagBytes before).length + (tagBytes after).length := by
    rw [hsplit, tagBytes, List.flatMap_append, List.length_append]
    rfl
  unfold Mb2Info.totalSize at hfits ⊢
  rw [addressBehind, BitVec.toNat_add, BitVec.toNat_add, show (8#32).toNat = 8 from rfl,
    BitVec.toNat_ofNat]
  omega

/-- **`mb2_find_tag` comes to the tags behind those of other types.** -/
theorem Mb2Info.LiesAt.run_eq (h : info.LiesAt memory base) {before after : List Mb2Tag}
    (hsplit : info.tags = before ++ after) (hbefore : ∀ t ∈ before, t.type ≠ want) (n : ℕ) :
    (mb2FindTag memory base (BitVec.ofNat 32 info.totalSize) want (before.length + n)).result =
      ((mb2FindLoop .notFound .invalid .ok memory (base + BitVec.ofNat 32 info.totalSize) want).run n
        (addressBehind base before)).result := by
  have hguard : ¬ (base = 0#32 ∨ BitVec.ofNat 32 info.totalSize < 16#32) := by
    rw [not_or, BitVec.not_lt, BitVec.le_def, h.toNat_totalSize]
    refine ⟨h.ne_null, ?_⟩
    show 16 ≤ info.totalSize
    unfold Mb2Info.totalSize
    omega
  have hbehind := h.toNat_addressBehind hsplit
  have hfirst := h.toNat_addressBehind (List.nil_append info.tags).symm
  have hlen : (tagBytes info.tags).length = (tagBytes before).length + (tagBytes after).length := by
    rw [hsplit, tagBytes, List.flatMap_append, List.length_append]
    rfl
  have hfirst_eq : addressBehind base [] = base + 8#32 := BitVec.add_zero _
  rw [hfirst_eq] at hfirst
  rw [mb2FindTag, if_neg hguard]
  refine run_of_holdsAt before (h.holds_append hsplit).1 (fun t ht => info.not_end t ?_) ?_ hbefore n
  · rw [hsplit]
    exact List.mem_append_left _ ht
  · rw [h.toNat_stop]
    omega

/-- A tag of the wanted type is returned, -/
theorem Mb2Info.LiesAt.find_ok (h : info.LiesAt memory base) {before after : List Mb2Tag} {t : Mb2Tag}
    (hsplit : info.tags = before ++ t :: after) (hbefore : ∀ u ∈ before, u.type ≠ want)
    (ht : t.type = want) (n : ℕ) :
    (mb2FindTag memory base (BitVec.ofNat 32 info.totalSize) want (before.length + (n + 1))).result =
        some (.ok (addressBehind base before)) ∧
      HoldsAt memory (addressBehind base before) t.bytes := by
  have hmem : HoldsAt memory (addressBehind base before) t.bytes := by
    have := (h.holds_append hsplit).2
    rw [tagBytes, List.flatMap_cons, List.append_assoc] at this
    exact this.append_left
  have hfits : (addressBehind base before).toNat + t.bytes.length ≤
      (base + BitVec.ofNat 32 info.totalSize).toNat := by
    have hbehind := h.toNat_addressBehind hsplit
    rw [tagBytes, List.flatMap_cons, List.length_append] at hbehind
    rw [h.toNat_stop]
    omega
  have hchecks := findChecks_of_holdsAt hmem
    (info.not_end t (hsplit ▸ List.mem_append_right _ List.mem_cons_self)) hfits
  refine ⟨?_, hmem⟩
  rw [h.run_eq hsplit hbefore]
  have htype := (Mb2Tag.fields_of_holdsAt hmem).1.trans ht
  -- a tag of the type is not passed over, and passes the checks
  rcases mb2FindLoop_cases Mb2FindResult.notFound .invalid .ok (addressBehind base before) with
    ⟨hgoes, -⟩ | ⟨-, hb⟩ | ⟨-, hnot⟩
  · exact absurd htype hgoes.2
  · rw [WhileLoop.run_leave (test_of_fits hfits) hb]
  · exact absurd hchecks hnot

/-- and the end tag ends a search without one. -/
theorem Mb2Info.LiesAt.find_notFound (h : info.LiesAt memory base)
    (hall : ∀ t ∈ info.tags, t.type ≠ want) (n : ℕ) :
    (mb2FindTag memory base (BitVec.ofNat 32 info.totalSize) want (info.tags.length + (n + 1))).result =
      some .notFound := by
  have hsplit := (List.append_nil info.tags).symm
  have hmem : HoldsAt memory (addressBehind base info.tags) Mb2Tag.endTag.bytes :=
    (h.holds_append hsplit).2
  have hfits : (addressBehind base info.tags).toNat + Mb2Tag.endTag.bytes.length ≤
      (base + BitVec.ofNat 32 info.totalSize).toNat := by
    rw [h.toNat_stop]
    exact (h.toNat_addressBehind hsplit).le
  obtain ⟨htype, hsize⟩ := Mb2Tag.fields_of_holdsAt hmem
  have hb : (mb2FindLoop Mb2FindResult.notFound .invalid .ok memory
      (base + BitVec.ofNat 32 info.totalSize) want).body (addressBehind base info.tags) =
        .inl .notFound := if_pos ⟨htype, hsize⟩
  rw [h.run_eq hsplit hall, WhileLoop.run_leave (test_of_fits hfits) hb]

end Layout

/-- `mb2_find_mmap` is `mb2_find_tag` for the memory map, in every memory. -/
theorem mb2FindMmap_eq (memory : U32 → U8) (base total : U32) (n : ℕ) :
    (mb2FindMmap memory base total n).entered = (mb2FindTag memory base total 6#32 n).entered ∧
      (mb2FindMmap memory base total n).result =
        (mb2FindTag memory base total 6#32 n).result.map Mb2FindResult.tag := by
  have hloop : mb2FindLoop none none some memory (base + total) 6#32 =
      (mb2FindLoop .notFound .invalid .ok memory (base + total) 6#32).mapResult Mb2FindResult.tag := by
    unfold mb2FindLoop WhileLoop.mapResult
    simp only [apply_ite (Sum.map Mb2FindResult.tag id)]
    rfl
  unfold mb2FindMmap mb2FindTag
  split
  · exact ⟨rfl, rfl⟩
  · rw [hloop, WhileLoop.run_mapResult]
    exact ⟨rfl, rfl⟩

/-- **Search in well-formed information.** `mb2_find_tag` returns the first tag of the wanted type in front
of the end tag, and `MB2_FIND_NOT_FOUND` exactly when there is none; `mb2_find_mmap` finds the tag that
`mb2_find_tag` finds for a memory map. -/
theorem mb2FindTag_first {info : Mb2Info} {memory : U32 → U8} {base : U32}
    (h : info.LiesAt memory base) {n : ℕ} (hn : info.tags.length < n) (want : U32) :
    (∀ before t after, info.tags = before ++ t :: after → (∀ u ∈ before, u.type ≠ want) →
      t.type = want →
        (mb2FindTag memory base (BitVec.ofNat 32 info.totalSize) want n).result =
            some (.ok (addressBehind base before)) ∧
          HoldsAt memory (addressBehind base before) t.bytes) ∧
    ((mb2FindTag memory base (BitVec.ofNat 32 info.totalSize) want n).result = some .notFound ↔
      ∀ t ∈ info.tags, t.type ≠ want) ∧
    (mb2FindMmap memory base (BitVec.ofNat 32 info.totalSize) n).result =
      (mb2FindTag memory base (BitVec.ofNat 32 info.totalSize) 6#32 n).result.map
        Mb2FindResult.tag := by
  have hok : ∀ before t after, info.tags = before ++ t :: after → (∀ u ∈ before, u.type ≠ want) →
      t.type = want →
        (mb2FindTag memory base (BitVec.ofNat 32 info.totalSize) want n).result =
            some (.ok (addressBehind base before)) ∧
          HoldsAt memory (addressBehind base before) t.bytes := by
    intro before t after hsplit hbefore ht
    have hlen : info.tags.length = before.length + (after.length + 1) := by
      rw [hsplit, List.length_append, List.length_cons]
    obtain ⟨k, rfl⟩ : ∃ k, n = before.length + (k + 1) := ⟨n - before.length - 1, by omega⟩
    exact h.find_ok hsplit hbefore ht k
  refine ⟨hok, ⟨fun hnot t ht hwant => ?_, fun hall => ?_⟩, (mb2FindMmap_eq memory base _ n).2⟩
  · -- the first tag of the type would have been found
    obtain ⟨u, hu⟩ := Option.isSome_iff_exists.mp
      (List.find?_isSome.mpr ⟨t, ht, decide_eq_true hwant⟩ : (info.tags.find? (·.type = want)).isSome)
    obtain ⟨hu, before, after, hsplit, hbefore⟩ := List.find?_eq_some_iff_append.mp hu
    have hfound := (hok before u after hsplit
      (fun v hv hv' => by simpa [hv'] using hbefore v hv) (of_decide_eq_true hu)).1
    exact Mb2FindResult.noConfusion (Option.some.inj (hfound.symm.trans hnot))
  · obtain ⟨k, rfl⟩ : ∃ k, n = info.tags.length + (k + 1) := ⟨n - info.tags.length - 1, by omega⟩
    exact h.find_notFound hall k

/-- A tag of eleven bytes with five bytes of padding, and an empty memory map. -/
def twoTags : Mb2Info where
  reserved := 0#32
  tags := [⟨1#32, [0x61#8, 0x62#8, 0x63#8], [0#8, 0#8, 0#8, 0#8, 0#8], rfl⟩, ⟨6#32, [], [], rfl⟩]
  not_end := by decide

/-- The second tag is found behind the padding of the first one. -/
theorem mb2FindTag_first_twoTags :
    (mb2FindTag (fun b => twoTags.bytes.getD (b - 0x1000#32).toNat 0#8) 0x1000#32
      (BitVec.ofNat 32 twoTags.totalSize) 6#32 3).result = some (.ok 0x1018#32) := by
  have hlies : twoTags.LiesAt (fun b => twoTags.bytes.getD (b - 0x1000#32).toNat 0#8) 0x1000#32 :=
    ⟨by decide, by decide, holdsAt_getD 0x1000#32 twoTags.bytes 0#8 (by decide)⟩
  exact ((mb2FindTag_first hlies (n := 3) (by decide) 6#32).1
    [⟨1#32, [0x61#8, 0x62#8, 0x63#8], [0#8, 0#8, 0#8, 0#8, 0#8], rfl⟩] ⟨6#32, [], [], rfl⟩ [] rfl
    (by decide) rfl).1

end Microkernel.Boot
