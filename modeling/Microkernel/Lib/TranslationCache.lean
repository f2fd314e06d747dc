import Microkernel.Lib.Paging
import Mathlib.Data.Set.Basic
import Mathlib.Logic.Function.Basic

/-! # Cached translations

What a processor may have cached of the page tables: translations of pages and entries of the directory,
read at any earlier moment and kept until they are invalidated. A program that changes the tables leaves
some pages stale until it has invalidated them; the rules say which, whatever the processor caches between
two instructions of the program. Global pages are not modelled.

* **`Mmu`, `Event`** — the tables with what is cached of them, and what a program does: it writes an
  entry, invalidates a page, or loads the tables again.
* **`At`** — the tables are these, and the pages of a set may be stale.
* **`Always`** — a property holds however the processor fills its caches between the events of a program.
* **`At.storeTable`, `At.storeDir`, `At.invlpg`, `At.reload`** — what each event does to the stale pages.
-/

namespace Microkernel.Paging

open Function (update)

/-- Write an entry of the table in a frame. -/
def Tables.storeTable (t : Tables) (f : BitVec 20) (k : BitVec 10) (e : BitVec 32) : Tables :=
  { t with table := update t.table f (update (t.table f) k e) }

/-- Write an entry of the directory. -/
def Tables.storeDir (t : Tables) (i : BitVec 10) (e : BitVec 32) : Tables :=
  { t with dir := update t.dir i e }

/-- The tables in memory and what the processor has cached of them. -/
structure Mmu where
  tables : Tables
  /-- Translations of pages. -/
  translations : List (BitVec 20 × Translation)
  /-- Entries of the directory. -/
  entries : List (BitVec 10 × BitVec 32)

/-- What changes the tables or the caches. -/
inductive Event where
  /-- The program writes an entry of the directory. -/
  | storeDir (i : BitVec 10) (e : BitVec 32)
  /-- The program writes an entry of the table in a frame. -/
  | storeTable (f : BitVec 20) (k : BitVec 10) (e : BitVec 32)
  /-- `invlpg`. -/
  | invlpg (a : BitVec 32)
  /-- A load of `CR3` with the directory in use. -/
  | reload
  /-- A load of `CR3` with another directory. -/
  | switch (dir : BitVec 10 → BitVec 32)
  /-- The processor caches an entry of the directory. -/
  | cacheEntry (i : BitVec 10)
  /-- The processor caches a translation, read through a cached directory entry or not. -/
  | cacheTranslation (p : BitVec 20) (e : Option (BitVec 32))
  /-- The processor drops what it has cached. -/
  | drop (p : BitVec 20)
  | dropEntry (i : BitVec 10)

/-- The program causes the event. -/
def Event.byProgram : Event → Bool
  | .storeDir .. | .storeTable .. | .invlpg _ | .reload | .switch _ => true
  | .cacheEntry _ | .cacheTranslation .. | .drop _ | .dropEntry _ => false

namespace Mmu

/-- One event. `invlpg` drops the translations of one page and all directory entries; a load of `CR3`
drops everything. -/
def step (m : Mmu) : Event → Mmu
  | .storeDir i e => { m with tables := m.tables.storeDir i e }
  | .storeTable f k e => { m with tables := m.tables.storeTable f k e }
  | .invlpg a =>
      { m with translations := m.translations.filter (·.1 ≠ pageOf a), entries := [] }
  | .reload => { m with translations := [], entries := [] }
  | .switch dir => { m with tables.dir := dir, translations := [], entries := [] }
  | .cacheEntry i =>
      let e := m.tables.dir i
      if present e ∧ ¬ large e then { m with entries := (i, e) :: m.entries } else m
  | .cacheTranslation p none =>
      match m.tables.walk p with
      | none => m
      | some t => { m with translations := (p, t) :: m.translations }
  | .cacheTranslation p (some e) =>
      if (dirIndex p, e) ∈ m.entries then
        match m.tables.under e p with
        | none => m
        | some t => { m with translations := (p, t) :: m.translations }
      else m
  | .drop p => { m with translations := m.translations.filter (·.1 ≠ p) }
  | .dropEntry i => { m with entries := m.entries.filter (·.1 ≠ i) }

/-- A run of events. -/
def run (m : Mmu) (events : List Event) : Mmu := events.foldl step m

/-- A run of two lists of events is one run after the other. -/
theorem run_append (m : Mmu) (es fs : List Event) : m.run (es ++ fs) = (m.run es).run fs :=
  List.foldl_append

/-- What an access to a page may use: a cached translation, the table under a cached directory entry, or
the tables. -/
def Uses (m : Mmu) (p : BitVec 20) (r : Option Translation) : Prop :=
  (∃ t, (p, t) ∈ m.translations ∧ r = some t) ∨
    (∃ e, (dirIndex p, e) ∈ m.entries ∧ r = m.tables.under e p) ∨ r = m.tables.walk p

end Mmu

/-! ### Agreement -/

/-- Two directory entries point to one table. -/
structure SameTable (e e' : BitVec 32) : Prop where
  present : present e = true ∧ present e' = true
  small : large e = false ∧ large e' = false
  frame : frameOf e = frameOf e'

/-- Entries that name one table, in a chain. -/
theorem SameTable.trans {e e' e'' : BitVec 32} (h : SameTable e e') (h' : SameTable e' e'') :
    SameTable e e'' :=
  ⟨⟨h.present.1, h'.present.2⟩, ⟨h.small.1, h'.small.2⟩, h.frame.trans h'.frame⟩

/-- What is cached agrees with the tables, for the pages that are not stale. -/
structure Mmu.Agrees (m : Mmu) (stale : Set (BitVec 20)) : Prop where
  translations : ∀ p t, (p, t) ∈ m.translations → p ∉ stale → m.tables.walk p = some t
  entries : ∀ p e, (dirIndex p, e) ∈ m.entries → p ∉ stale →
    SameTable e (m.tables.dir (dirIndex p)) ∧ m.tables.under e p = m.tables.walk p

namespace Mmu

variable {m : Mmu} {stale stale' : Set (BitVec 20)} {p : BitVec 20}

/-- Accesses to a page that is not stale use its translation. -/
theorem Agrees.uses (h : m.Agrees stale) (hp : p ∉ stale) {r : Option Translation} (hr : m.Uses p r) :
    r = m.tables.walk p := by
  obtain ⟨t, ht, rfl⟩ | ⟨e, he, rfl⟩ | rfl := hr
  · exact (h.translations p t ht hp).symm
  · exact (h.entries p e he hp).2
  · rfl

/-- Allowing more pages to be stale keeps the agreement. -/
theorem Agrees.mono (h : m.Agrees stale) (hsub : stale ⊆ stale') : m.Agrees stale' :=
  ⟨fun p t ht hp => h.translations p t ht fun hs => hp (hsub hs),
    fun p e he hp => h.entries p e he fun hs => hp (hsub hs)⟩

/-- Caching one more translation. -/
theorem Agrees.push (h : m.Agrees stale) {t : Translation} (ht : p ∉ stale → m.tables.walk p = some t) :
    Agrees { m with translations := (p, t) :: m.translations } stale := by
  refine ⟨fun q u hq hqs => ?_, h.entries⟩
  rcases List.mem_cons.mp hq with heq | hq
  · obtain ⟨rfl, rfl⟩ := Prod.mk.inj heq
    exact ht hqs
  · exact h.translations q u hq hqs

/-- **What the processor does by itself** changes no table and keeps the agreement. -/
theorem Agrees.cache (h : m.Agrees stale) {e : Event} (he : e.byProgram = false) :
    (m.step e).tables = m.tables ∧ (m.step e).Agrees stale := by
  cases e with
  | storeDir i e => exact absurd he (by simp [Event.byProgram])
  | storeTable f k e => exact absurd he (by simp [Event.byProgram])
  | invlpg a => exact absurd he (by simp [Event.byProgram])
  | reload => exact absurd he (by simp [Event.byProgram])
  | switch dir => exact absurd he (by simp [Event.byProgram])
  | cacheEntry i =>
    simp only [step]
    split
    · rename_i hpresent
      refine ⟨rfl, h.translations, fun p e hp hps => ?_⟩
      rcases List.mem_cons.mp hp with heq | hp
      · obtain ⟨hi, rfl⟩ := Prod.mk.inj heq
        -- the entry that is cached is the one of the directory
        have hsmall : large (m.tables.dir i) = false := by simpa using hpresent.2
        rw [← hi] at hpresent hsmall ⊢
        exact ⟨⟨⟨hpresent.1, hpresent.1⟩, ⟨hsmall, hsmall⟩, rfl⟩, rfl⟩
      · exact h.entries p e hp hps
    · exact ⟨rfl, h⟩
  | cacheTranslation p e =>
    cases e with
    | none =>
      simp only [step]
      split
      · exact ⟨rfl, h⟩
      · rename_i t ht
        exact ⟨rfl, h.push fun _ => ht⟩
    | some e =>
      simp only [step]
      split
      · rename_i hmem
        split
        · exact ⟨rfl, h⟩
        · rename_i t ht
          -- what a cached entry leads to agrees, unless the page is stale
          exact ⟨rfl, h.push fun hp => (h.entries p e hmem hp).2.symm.trans ht⟩
      · exact ⟨rfl, h⟩
  | drop p =>
    exact ⟨rfl, fun q t hq => h.translations q t (List.mem_filter.mp hq).1, h.entries⟩
  | dropEntry i =>
    exact ⟨rfl, h.translations, fun q e hq => h.entries q e (List.mem_filter.mp hq).1⟩

/-- After `invlpg` its page is not stale any more. -/
theorem Agrees.invlpg (h : m.Agrees stale) (a : BitVec 32) :
    (m.step (.invlpg a)).Agrees (stale \ {pageOf a}) := by
  refine ⟨fun p t hp hps => ?_, fun p e hp => absurd hp List.not_mem_nil⟩
  obtain ⟨hmem, hne⟩ := List.mem_filter.mp hp
  refine h.translations p t hmem fun hs => hps ⟨hs, ?_⟩
  simpa using hne

/-- When nothing is cached, no page is stale. -/
theorem agrees_of_nil (ht : m.translations = []) (he : m.entries = []) : m.Agrees ∅ :=
  ⟨fun _ _ hp => absurd (ht ▸ hp) List.not_mem_nil, fun _ _ hp => absurd (he ▸ hp) List.not_mem_nil⟩

end Mmu

/-! ### Changing the tables -/

namespace Tables

/-- The translation of the page reads this entry of the table in this frame. -/
structure Reads (t : Tables) (p f : BitVec 20) (k : BitVec 10) : Prop where
  present : present (t.dir (dirIndex p)) = true
  small : large (t.dir (dirIndex p)) = false
  frame : frameOf (t.dir (dirIndex p)) = f
  index : tableIndex p = k

variable {t : Tables} {p f : BitVec 20} {k : BitVec 10} {e : BitVec 32}

/-- An entry of a table that the translation of a page does not read can be written. -/
theorem under_storeTable {d : BitVec 32} (h : present d = true → large d = false → frameOf d = f →
    tableIndex p ≠ k) : (t.storeTable f k e).under d p = t.under d p := by
  unfold under storeTable
  split
  · rfl
  · rename_i hpresent
    split
    · rfl
    · rename_i hsmall
      congr 1
      show update t.table f (update (t.table f) k e) (frameOf d) (tableIndex p) = _
      by_cases hf : frameOf d = f
      · have hk := h (by simpa using hpresent) (by simpa using hsmall) hf
        rw [hf, Function.update_self, Function.update_of_ne hk]
      · rw [Function.update_of_ne hf]

/-- A store to a table changes no walk that does not read the stored entry. -/
theorem walk_storeTable (h : ¬ t.Reads p f k) : (t.storeTable f k e).walk p = t.walk p :=
  under_storeTable fun hpresent hsmall hframe hk => h ⟨hpresent, hsmall, hframe, hk⟩

/-- A table that the translation of a page does not read can be replaced. -/
theorem walk_update (h : ∀ k, ¬ t.Reads p f k) (g : BitVec 10 → BitVec 32) :
    walk { t with table := update t.table f g } p = t.walk p := by
  unfold walk under
  dsimp only
  split
  · rfl
  · rename_i hpresent
    split
    · rfl
    · rename_i hsmall
      have hne : frameOf (t.dir (dirIndex p)) ≠ f := fun hf =>
        h (tableIndex p) ⟨by simpa using hpresent, by simpa using hsmall, hf, rfl⟩
      rw [Function.update_of_ne hne]

/-- A store to the directory changes no walk through another directory entry. -/
theorem walk_storeDir {i : BitVec 10} (h : dirIndex p ≠ i) : (t.storeDir i e).walk p = t.walk p := by
  show (t.storeDir i e).under (update t.dir i e (dirIndex p)) p = _
  rw [Function.update_of_ne h]
  rfl

/-- Entries of the directory over other pages can be replaced. -/
theorem walk_overwrite {is : List (BitVec 10)} (h : dirIndex p ∉ is) :
    walk { t with dir := fun i => if i ∈ is then e else t.dir i } p = t.walk p := by
  unfold walk
  dsimp only
  rw [if_neg h]
  rfl

end Tables

namespace Mmu

variable {m : Mmu} {t t' : Tables} {stale stale' : Set (BitVec 20)} {p f : BitVec 20} {k : BitVec 10}
  {e : BitVec 32}

/-- The tables are `t`, and only pages of `stale` can be stale. -/
structure At (m : Mmu) (t : Tables) (stale : Set (BitVec 20)) : Prop where
  tables : m.tables = t
  agrees : m.Agrees stale

/-- **Writing an entry of a table** leaves the pages stale whose translations read it. -/
theorem At.storeTable (h : m.At t stale) (hsub : stale ⊆ stale')
    (hreads : ∀ p, t.Reads p f k → p ∈ stale') :
    (m.step (.storeTable f k e)).At (t.storeTable f k e) stale' := by
  obtain ⟨rfl, h⟩ := h
  refine ⟨rfl, fun p u hu hp => ?_, fun p d hd hp => ?_⟩
  · exact (Tables.walk_storeTable fun hr => hp (hreads p hr)).trans
      (h.translations p u hu fun hs => hp (hsub hs))
  · -- a cached entry points to the same table as the directory does
    obtain ⟨hsame, hunder⟩ := h.entries p d hd fun hs => hp (hsub hs)
    refine ⟨hsame, ?_⟩
    have hd' : (m.tables.storeTable f k e).under d p = m.tables.under d p :=
      Tables.under_storeTable fun _ _ hframe hk =>
        hp (hreads p ⟨hsame.present.2, hsame.small.2, hsame.frame.symm.trans hframe, hk⟩)
    exact (hd'.trans hunder).trans (Tables.walk_storeTable fun hr => hp (hreads p hr)).symm

/-- **Writing an entry of the directory** leaves the pages stale whose translation changes, or for which
another table is read. -/
theorem At.storeDir (h : m.At t stale) (hsub : stale ⊆ stale') {i : BitVec 10}
    (hpages : ∀ p ∉ stale', dirIndex p = i → (t.storeDir i e).walk p = t.walk p ∧
      (present (t.dir i) = true → SameTable (t.dir i) e)) :
    (m.step (.storeDir i e)).At (t.storeDir i e) stale' := by
  obtain ⟨rfl, h⟩ := h
  have hwalk : ∀ p ∉ stale', (m.tables.storeDir i e).walk p = m.tables.walk p := by
    intro p hp
    by_cases hi : dirIndex p = i
    · exact (hpages p hp hi).1
    · exact Tables.walk_storeDir hi
  refine ⟨rfl, fun p u hu hp => ?_, fun p d hd hp => ?_⟩
  · exact (hwalk p hp).trans (h.translations p u hu fun hs => hp (hsub hs))
  · obtain ⟨hsame, hunder⟩ := h.entries p d hd fun hs => hp (hsub hs)
    refine ⟨?_, hunder.trans (hwalk p hp).symm⟩
    show SameTable d (update m.tables.dir i e (dirIndex p))
    by_cases hi : dirIndex p = i
    · subst hi
      rw [Function.update_self]
      exact hsame.trans ((hpages p hp rfl).2 hsame.present.2)
    · rw [Function.update_of_ne hi]
      exact hsame

/-- After `invlpg` its page is not stale. -/
theorem At.invlpg (h : m.At t stale) (a : BitVec 32) :
    (m.step (.invlpg a)).At t (stale \ {pageOf a}) :=
  ⟨h.tables, h.agrees.invlpg a⟩

/-- After a load of `CR3` no page is stale. -/
theorem At.reload (h : m.At t stale) : (m.step .reload).At t ∅ := ⟨h.tables, agrees_of_nil rfl rfl⟩

/-- Accesses to pages that are not stale. -/
theorem At.uses (h : m.At t stale) (hp : p ∉ stale) {r : Option Translation} (hr : m.Uses p r) :
    r = t.walk p := by
  rw [← h.tables]
  exact h.agrees.uses hp hr

/-- Allowing more pages to be stale keeps the processor at the same tables. -/
theorem At.mono (h : m.At t stale) (hsub : stale ⊆ stale') : m.At t stale' :=
  ⟨h.tables, h.agrees.mono hsub⟩

/-! ### Programs -/

/-- **Whatever the processor caches between the events of a program**, `P` holds until they are all done,
and then `Q`. -/
def Always (m : Mmu) (program : List Event) (P Q : Mmu → Prop) : Prop :=
  ∀ events, (events.filter Event.byProgram <+: program → P (m.run events)) ∧
    (events.filter Event.byProgram = program → Q (m.run events))

variable {P Q R : Mmu → Prop} {program program' : List Event}

/-- Between two events of the program. -/
theorem At.run (h : m.At t stale) {events : List Event}
    (hevents : events.filter Event.byProgram = []) : (m.run events).At t stale := by
  induction events generalizing m with
  | nil => exact h
  | cons e es ih =>
    have hall := List.filter_eq_nil_iff.mp hevents
    obtain ⟨htables, hagrees⟩ := h.agrees.cache (e := e) (by simpa using hall e List.mem_cons_self)
    exact ih ⟨htables.trans h.tables, hagrees⟩ (List.filter_eq_nil_iff.mpr fun e' he' =>
      hall e' (List.mem_cons_of_mem e he'))

/-- The program that does nothing. -/
theorem At.always_nil (h : m.At t stale) (hPQ : ∀ m' : Mmu, m'.At t stale → P m' ∧ Q m') :
    m.Always [] P Q :=
  fun _ => ⟨fun hprefix => (hPQ _ (h.run (List.prefix_nil.mp hprefix))).1,
    fun hevents => (hPQ _ (h.run hevents)).2⟩

/-- The program's first event. -/
theorem At.always_cons (h : m.At t stale) (hP : ∀ m' : Mmu, m'.At t stale → P m') {e : Event}
    (hrest : ∀ m' : Mmu, m'.At t stale → (m'.step e).Always program P Q) :
    m.Always (e :: program) P Q := by
  intro events
  constructor
  · intro hprefix
    rcases hnil : events.filter Event.byProgram with _ | ⟨e', es⟩
    · exact hP _ (h.run hnil)
    · rw [hnil, List.cons_prefix_cons] at hprefix
      obtain ⟨rfl, hprefix⟩ := hprefix
      obtain ⟨before, rest, rfl, hbefore, -, hrest'⟩ := List.filter_eq_cons_iff.mp hnil
      rw [run_append]
      exact (hrest _ (h.run (List.filter_eq_nil_iff.mpr hbefore)) rest).1 (hrest' ▸ hprefix)
  · intro hevents
    obtain ⟨before, rest, rfl, hbefore, -, hrest'⟩ := List.filter_eq_cons_iff.mp hevents
    rw [run_append]
    exact (hrest _ (h.run (List.filter_eq_nil_iff.mpr hbefore)) rest).2 hrest'

/-- One program after another. -/
theorem Always.append (h : m.Always program P R) (h' : ∀ m', R m' → m'.Always program' P Q) :
    m.Always (program ++ program') P Q := by
  intro events
  constructor
  · intro hprefix
    rcases List.prefix_or_prefix_of_prefix hprefix (List.prefix_append program program') with hle | hle
    · exact (h events).1 hle
    · obtain ⟨rest, hrest⟩ := hle
      obtain ⟨before, after, rfl, hbefore, hafter⟩ := List.filter_eq_append_iff.mp hrest.symm
      rw [← hrest, List.prefix_append_right_inj] at hprefix
      rw [run_append]
      exact (h' _ ((h before).2 hbefore) after).1 (hafter ▸ hprefix)
  · intro hevents
    obtain ⟨before, after, rfl, hbefore, hafter⟩ := List.filter_eq_append_iff.mp hevents
    rw [run_append]
    exact (h' _ ((h before).2 hbefore) after).2 hafter

/-- Forgetting what holds meanwhile. -/
theorem Always.finally (h : m.Always program P Q) : m.Always program (fun _ => True) Q :=
  fun events => ⟨fun _ => trivial, (h events).2⟩

/-- A program of one event. -/
theorem At.always_single (h : m.At t stale) {e : Event}
    (hstep : ∀ m' : Mmu, m'.At t stale → (m'.step e).At t' stale')
    (hP : ∀ m' : Mmu, m'.At t stale ∨ m'.At t' stale' → P m') :
    m.Always [e] P (·.At t' stale') :=
  h.always_cons (fun _ h' => hP _ (.inl h')) fun m' h' =>
    (hstep m' h').always_nil fun _ h'' => ⟨hP _ (.inr h''), h''⟩

/-- Entries of a table that no translation reads, written one after another. -/
theorem At.always_storeTable (h : m.At t stale) (hunread : ∀ p k, ¬ t.Reads p f k) (ks : List (BitVec 10))
    (hP : ∀ m' t', m'.At t' stale → (∀ p, t'.walk p = t.walk p) → P m') :
    m.Always (ks.map fun k => .storeTable f k e) P
      (·.At { t with table := update t.table f fun k => if k ∈ ks then e else t.table f k } stale) := by
  induction ks generalizing m t with
  | nil =>
    refine h.always_nil fun m' h' => ⟨hP m' t h' fun _ => rfl, ?_⟩
    simpa using h'
  | cons k ks ih =>
    refine h.always_cons (fun m' h' => hP m' t h' fun _ => rfl) fun m' h' => ?_
    have hwalk : ∀ p, (t.storeTable f k e).walk p = t.walk p := fun p =>
      Tables.walk_storeTable (hunread p k)
    have hrest := ih (h'.storeTable subset_rfl fun p hr => absurd hr (hunread p k))
      (fun p k' hr => hunread p k' ⟨hr.present, hr.small, hr.frame, hr.index⟩)
      (fun m'' t'' h'' hw => hP m'' t'' h'' fun p => (hw p).trans (hwalk p))
    have htable : update (t.storeTable f k e).table f
        (fun l => if l ∈ ks then e else (t.storeTable f k e).table f l) =
        update t.table f fun l => if l ∈ k :: ks then e else t.table f l := by
      unfold Tables.storeTable
      simp only [Function.update_self, Function.update_idem]
      congr 1
      funext l
      by_cases hl : l = k
      · simp [hl]
      · simp [hl]
    rw [htable] at hrest
    exact hrest

/-- Entries of the directory over stale pages, written one after another. -/
theorem At.always_storeDir (h : m.At t stale) (is : List (BitVec 10))
    (hstale : ∀ p, dirIndex p ∈ is → p ∈ stale)
    (hP : ∀ m' t', m'.At t' stale → (∀ p ∉ stale, t'.walk p = t.walk p) → P m') :
    m.Always (is.map fun i => .storeDir i e) P
      (·.At { t with dir := fun i => if i ∈ is then e else t.dir i } stale) := by
  induction is generalizing m t with
  | nil =>
    refine h.always_nil fun m' h' => ⟨hP m' t h' fun _ _ => rfl, ?_⟩
    simpa using h'
  | cons i is ih =>
    refine h.always_cons (fun m' h' => hP m' t h' fun _ _ => rfl) fun m' h' => ?_
    have hmem : ∀ p ∉ stale, dirIndex p ≠ i := fun p hp hi =>
      hp (hstale p (hi ▸ List.mem_cons_self))
    have hrest := ih (h'.storeDir (e := e) subset_rfl fun p hp hi => absurd hi (hmem p hp))
      (fun p hp => hstale p (List.mem_cons_of_mem i hp))
      (fun m'' t'' h'' hw => hP m'' t'' h'' fun p hp =>
        (hw p hp).trans (Tables.walk_storeDir (hmem p hp)))
    have hdir : (fun j => if j ∈ is then e else (t.storeDir i e).dir j) =
        fun j => if j ∈ i :: is then e else t.dir j := by
      funext j
      unfold Tables.storeDir
      by_cases hj : j = i
      · simp [hj]
      · simp [hj]
    rw [hdir] at hrest
    exact hrest

end Mmu

end Microkernel.Paging
