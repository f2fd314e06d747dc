import Microkernel.Vma.MapleStored

/-! # Insertions into the tree

An allocated area goes into the leaf for its start. A full leaf is split first, for which one node has to
be free; the splits above may need more of them.

* **`LeafIn.insert`, `LeafIn.split`, `LeafIn.splitInsert`** — the leaf alone: with a place for one more,
  cut in two halves, and both.
* **`mapleInsert_split`** — the leaf in its tree. The area is in the tree afterwards; the others all stay
  when there are enough nodes for the splits above, and otherwise those of the new leaf may hang in no
  node.
-/

namespace Microkernel.Vma

open Function (update)

/-! ### Leaves -/

section Leaf
variable {s : MapleState} {tight : Prop} {lo hi n v : ℕ} {w : List ℕ}

/-- **An area is inserted into a leaf** with room in the order of the starts. -/
theorem MapleState.LeafIn.insert (h : s.LeafIn tight lo hi n w) (hlen : w.length < mapleNodeSlots)
    (hvalid : (s.vmas v).Valid) (hno : ∀ u ∈ w, ¬ (s.vmas v).Overlaps (s.vmas u))
    (hlo : lo ≤ (s.vmas v).lo) (hhi : (s.vmas v).lo < hi) (ht : tight → (s.vmas v).hi ≤ hi) :
    ∃ pos n' w', leafFindSlot mapleNodeSlots (s.nodes n) (s.vmas v).start = .ok pos ∧
      leafInsertAt mapleNodeSlots (s.nodes n) pos v (s.vmas v).start = .ok n' ∧
      n'.parent = (s.nodes n).parent ∧ w'.Perm (v :: w) ∧
      ∀ (s' : MapleState) m, s'.nodes m = n' → s'.vmas = s.vmas → s'.LeafIn tight lo hi m w' := by
  obtain ⟨f, hf⟩ : ∃ f : ℕ → U32 × ℕ, f = fun u => ((s.vmas u).start, u) := ⟨_, rfl⟩
  obtain ⟨p, hp⟩ : ∃ p : ℕ → Bool, p = fun u => decide ((s.vmas u).start < (s.vmas v).start) := ⟨_, rfl⟩
  have hentries : (s.nodes n).HasEntries (w.map f) := by
    rw [hf]
    exact h.entries
  have hple : (w.takeWhile p).length ≤ w.length := (List.takeWhile_sublist _).length_le
  have hfind : leafFindSlot mapleNodeSlots (s.nodes n) (s.vmas v).start = .ok (w.takeWhile p).length := by
    rw [hentries.findSlot (by rw [List.length_map]; exact hlen.le), List.takeWhile_map, List.length_map,
      hp, hf]
    rfl
  obtain ⟨n', hins, hpar, hentries'⟩ : ∃ n', leafInsertAt mapleNodeSlots (s.nodes n) (w.takeWhile p).length
      v (s.vmas v).start = .ok n' ∧ n'.parent = (s.nodes n).parent ∧
      n'.HasEntries ((w.map f).insertIdx (w.takeWhile p).length ((s.vmas v).start, v)) :=
    hentries.insertAt (by rwa [List.length_map]) (by rwa [List.length_map]) (by rwa [List.length_map])
  -- by starts, this is the insertion of the registry, which keeps areas that do not meet apart
  have hmaps : (w.insertIdx (w.takeWhile p).length v).map s.vmas =
      AreaSet.insertList (w.map s.vmas) (s.vmas v) := by
    rw [List.map_insertIdx, AreaSet.insertList, ← insertIdx_takeWhile, List.takeWhile_map,
      List.length_map, hp]
    rfl
  have hmem : ∀ u, u ∈ w.insertIdx (w.takeWhile p).length v ↔ u = v ∨ u ∈ w := fun u =>
    List.mem_insertIdx hple
  refine ⟨_, n', w.insertIdx (w.takeWhile p).length v, hfind, hins, hpar, List.perm_insertIdx v w hple,
    fun s' m hm hvmas => ⟨?_, h.lt, fun u hu => ?_, ?_⟩⟩
  · have hkey : (s.vmas v).start = (f v).1 := by rw [hf]
    rw [hm, hvmas, ← hf, List.map_insertIdx, hf]
    rw [hf] at hentries'
    exact hentries'
  · rw [hvmas]
    rcases (hmem u).mp hu with rfl | hu
    exacts [⟨hlo, hhi, ht⟩, h.inside u hu]
  · rw [hvmas, hmaps]
    refine AreaSet.separated_insertList h.separated hvalid fun b hb => ?_
    obtain ⟨u, hu, rfl⟩ := List.mem_map.mp hb
    exact hno u hu

/-- **A full leaf is split** at the start of one of its areas. -/
theorem MapleState.LeafIn.split (h : s.LeafIn tight lo hi n w) (hfull : w.length = mapleNodeSlots)
    (newLeaf : MapleNode) :
    ∃ a b u w₁ w₂, splitLeaf mapleNodeSlots (s.nodes n) newLeaf = .ok (a, b, (s.vmas u).start) ∧
      a.parent = (s.nodes n).parent ∧ b.parent = newLeaf.parent ∧ w = w₁ ++ w₂ ∧ u ∈ w ∧
      w₁.length < mapleNodeSlots ∧ w₂.length < mapleNodeSlots ∧
      ∀ (s' : MapleState) m, s'.vmas = s.vmas →
        (s'.nodes m = a → s'.LeafIn tight lo (s.vmas u).lo m w₁) ∧
        (s'.nodes m = b → s'.LeafIn tight (s.vmas u).lo hi m w₂) := by
  obtain ⟨a, b, key, e, hsplit, ha, hb, hapar, hbpar, he, hkey⟩ :=
    h.entries.split (by rw [List.length_map]; exact hfull) newLeaf
  have hlen : w.length = 10 := hfull
  have hmid : splitMid = 5 := rfl
  rw [← List.map_take] at ha
  rw [← List.map_drop] at hb
  -- the key is the start of the first area of the second half
  obtain ⟨u, w₂, hdrop⟩ : ∃ u w₂, w.drop splitMid = u :: w₂ := by
    cases hd : w.drop splitMid with
    | nil =>
      have := congrArg List.length hd
      rw [List.length_drop, hlen, List.length_nil] at this
      omega
    | cons u w₂ => exact ⟨u, w₂, rfl⟩
  have hw : w = w.take splitMid ++ u :: w₂ := by rw [← hdrop, List.take_append_drop]
  have hu : u ∈ w := by
    rw [hw]
    exact List.mem_append_right _ List.mem_cons_self
  obtain rfl : key = (s.vmas u).start := by
    have hget : w[splitMid]? = some u := by
      rw [← Nat.add_zero splitMid, ← List.getElem?_drop, hdrop]
      rfl
    rw [List.getElem?_map, hget] at he
    rw [hkey, ← Option.some.inj he]
  rw [hdrop] at hb
  have hsep := h.separated
  rw [hw, List.map_append, List.map_cons] at hsep
  obtain ⟨hsep₁, hsep₂, hcross⟩ := IntervalList.separated_append.mp hsep
  obtain ⟨hu₁, -, hbehind⟩ := IntervalList.separated_cons.mp hsep₂
  have hfront : ∀ x ∈ w.take splitMid, (s.vmas x).hi ≤ (s.vmas u).lo := fun x hx =>
    hcross _ (List.mem_map_of_mem hx) _ List.mem_cons_self
  have htake : ∀ x ∈ w.take splitMid, x ∈ w := fun x hx => List.mem_of_mem_take hx
  have hlt : ∀ x ∈ w.take splitMid, (s.vmas x).lo < (s.vmas x).hi := fun x hx =>
    hsep₁.nonempty _ (List.mem_map_of_mem hx)
  -- the first half is not empty, so the key is above the start of the range
  have hlow : lo < (s.vmas u).lo := by
    obtain ⟨x, hx⟩ : ∃ x, x ∈ w.take splitMid := List.exists_mem_of_length_pos (by
      rw [List.length_take, hlen]
      omega)
    exact ((h.inside x (htake x hx)).1.trans_lt (hlt x hx)).trans_le (hfront x hx)
  refine ⟨a, b, u, w.take splitMid, u :: w₂, hsplit, hapar, hbpar, hw, hu, ?_, ?_,
    fun s' m hvmas => ⟨fun hm => ⟨?_, hlow, fun x hx => ?_, ?_⟩, fun hm => ⟨?_, (h.inside u hu).2.1,
      fun x hx => ?_, ?_⟩⟩⟩
  · rw [List.length_take, hlen]
    decide
  · rw [← hdrop, List.length_drop, hlen]
    decide
  · rw [hm, hvmas]
    exact ha
  · rw [hvmas]
    exact ⟨(h.inside x (htake x hx)).1, (hlt x hx).trans_le (hfront x hx), fun _ => hfront x hx⟩
  · rw [hvmas]
    exact hsep₁
  · rw [hm, hvmas]
    exact hb
  · have hxw : x ∈ w := by
      rw [hw]
      exact List.mem_append_right _ hx
    rw [hvmas]
    refine ⟨?_, (h.inside x hxw).2⟩
    rcases List.mem_cons.mp hx with rfl | hx
    exacts [le_rfl, hu₁.le.trans (hbehind _ (List.mem_map_of_mem hx))]
  · rw [hvmas, List.map_cons]
    exact hsep₂

/-- **A full leaf is split and the area inserted** into the half for its start. -/
theorem MapleState.LeafIn.splitInsert (h : s.LeafIn tight lo hi n w) (hfull : w.length = mapleNodeSlots)
    (hvalid : (s.vmas v).Valid) (hno : ∀ u ∈ w, ¬ (s.vmas v).Overlaps (s.vmas u))
    (hlo : lo ≤ (s.vmas v).lo) (hhi : (s.vmas v).lo < hi) (ht : tight → (s.vmas v).hi ≤ hi)
    (newLeaf : MapleNode) :
    ∃ a b key pos n' w₁ w₂, splitLeaf mapleNodeSlots (s.nodes n) newLeaf = .ok (a, b, key) ∧
      leafFindSlot mapleNodeSlots (if (s.vmas v).start < key then a else b) (s.vmas v).start = .ok pos ∧
      leafInsertAt mapleNodeSlots (if (s.vmas v).start < key then a else b) pos v (s.vmas v).start =
        .ok n' ∧
      (if (s.vmas v).start < key then n' else a).parent = (s.nodes n).parent ∧
      (if (s.vmas v).start < key then b else n').parent = newLeaf.parent ∧
      (w₁ ++ w₂).Perm (v :: w) ∧
      ∀ (s' : MapleState) c d, s'.vmas = s.vmas →
        s'.nodes c = (if (s.vmas v).start < key then n' else a) →
        s'.nodes d = (if (s.vmas v).start < key then b else n') →
        s'.LeafIn tight lo key.toNat c w₁ ∧ s'.LeafIn tight key.toNat hi d w₂ := by
  obtain ⟨a, b, u, w₁, w₂, hsplit, hapar, hbpar, rfl, hu, hlen₁, hlen₂, hleaf⟩ := h.split hfull newLeaf
  have hno₁ : ∀ x ∈ w₁, ¬ (s.vmas v).Overlaps (s.vmas x) := fun x hx =>
    hno x (List.mem_append_left w₂ hx)
  have hno₂ : ∀ x ∈ w₂, ¬ (s.vmas v).Overlaps (s.vmas x) := fun x hx =>
    hno x (List.mem_append_right w₁ hx)
  by_cases hside : (s.vmas v).start < (s.vmas u).start
  · -- the area does not overlap the first one behind the key
    have hend : (s.vmas v).hi ≤ (s.vmas u).lo := by
      have hne : (s.vmas u).lo < (s.vmas u).hi := h.separated.nonempty _ (List.mem_map_of_mem hu)
      by_contra hgt
      exact hno u hu ⟨lt_trans hside hne, not_le.mp hgt⟩
    obtain ⟨t, hta⟩ : ∃ t : MapleState, t = s.setNode n a := ⟨_, rfl⟩
    have htn : t.nodes n = a := by
      rw [hta]
      exact Function.update_self ..
    have htv : t.vmas = s.vmas := by rw [hta]; rfl
    obtain ⟨pos, n', w', hfind, hins, hpar, hperm, hleaf'⟩ := ((hleaf t n htv).1 htn).insert (v := v) hlen₁
      (by rwa [htv]) (by rwa [htv]) (by rwa [htv]) (by rwa [htv]) fun _ => by rwa [htv]
    rw [htn, htv] at hfind hins
    rw [htn] at hpar
    refine ⟨a, b, _, pos, n', w', w₂, hsplit, ?_⟩
    simp only [if_pos hside]
    exact ⟨hfind, hins, hpar.trans hapar, hbpar, hperm.append_right w₂, fun s' c d hvmas hc hd =>
      ⟨hleaf' s' c hc (hvmas.trans htv.symm), (hleaf s' d hvmas).2 hd⟩⟩
  · obtain ⟨t, htb⟩ : ∃ t : MapleState, t = s.setNode n b := ⟨_, rfl⟩
    have htn : t.nodes n = b := by
      rw [htb]
      exact Function.update_self ..
    have htv : t.vmas = s.vmas := by rw [htb]; rfl
    obtain ⟨pos, n', w', hfind, hins, hpar, hperm, hleaf'⟩ := ((hleaf t n htv).2 htn).insert (v := v) hlen₂
      (by rwa [htv]) (by rwa [htv]) (by rw [htv]; exact BitVec.not_lt.mp hside) (by rwa [htv])
      (by rwa [htv])
    rw [htn, htv] at hfind hins
    rw [htn] at hpar
    refine ⟨a, b, _, pos, n', w₁, w', hsplit, ?_⟩
    simp only [if_neg hside]
    exact ⟨hfind, hins, hapar, hpar.trans hbpar,
      (hperm.append_left w₁).trans List.perm_middle, fun s' c d hvmas hc hd =>
      ⟨(hleaf s' c hvmas).1 hc, hleaf' s' d hd (hvmas.trans htv.symm)⟩⟩

end Leaf

/-! ### The tree -/

section Tree
variable {s : MapleState} {L : MapleLabels} {tight : Prop} {height root lo hi leaf v up : ℕ}
  {par : Option ℕ} {vs free vL vR w : List ℕ}

/-- A leaf with room takes the area. -/
theorem mapleInsert_room (h : s.Tree L tight height root vs free)
    (hpath : s.Path L tight height root 0 lo hi par leaf vL vR up)
    (hleaf : s.Subtree L tight 0 lo hi par leaf w) (hvs : vs = vL ++ (w ++ vR))
    (hlen : w.length < mapleNodeSlots) (hvalid : (s.vmas v).Valid)
    (hno : ∀ u ∈ w, ¬ (s.vmas v).Overlaps (s.vmas u)) (hlo : lo ≤ (s.vmas v).lo)
    (hhi : (s.vmas v).lo < hi) (ht : tight → (s.vmas v).hi ≤ hi) :
    ∃ s' vs', mapleInsert mapleNodeSlots leaf v (s.vmas v).start s = .ok (s', 0) ∧
      s'.vmas = s.vmas ∧ s'.vmaFree = s.vmaFree ∧ s'.count = s.count + 1 ∧
      s'.Tree L tight height root vs' free ∧ vs'.Perm (v :: vs) := by
  obtain ⟨hlabel, hpar, hin⟩ := hleaf
  obtain ⟨pos, n', w', hfind, hins, hpar', hperm, hin'⟩ := hin.insert hlen hvalid hno hlo hhi ht
  obtain ⟨s', hs'⟩ : ∃ s' : MapleState, s' = { s.setNode leaf n' with count := s.count + 1 } := ⟨_, rfl⟩
  have hself : s'.nodes leaf = n' := by
    rw [hs']
    exact Function.update_self ..
  have hother : ∀ m, m ≠ leaf → s'.nodes m = s.nodes m := fun m hm => by
    rw [hs']
    exact Function.update_of_ne hm ..
  have hvmas : s'.vmas = s.vmas := by rw [hs']; rfl
  have hpath' : s'.Path L tight height root 0 lo hi par leaf vL vR up := by
    refine hpath.congr (fun m _ hno => ⟨hother m ?_, rfl⟩) fun u _ => by rw [hvmas]
    rintro rfl
    exact hno ⟨0, lo, hlabel, Nat.one_pos, le_rfl, hin.lt⟩
  refine ⟨s', vL ++ (w' ++ vR), ?_, hvmas, by rw [hs']; rfl, by rw [hs'], ⟨?_, hpath'.plug ⟨hlabel, ?_,
    hin' s' leaf hself hvmas⟩, h.free.congr (by rw [hs']; rfl) fun m hm => hother m ?_⟩, ?_⟩
  · have hnr : (s.nodes leaf).nrEntries.toNat < mapleNodeSlots := by
      rwa [hin.entries.nrEntries, List.length_map]
    rw [mapleInsert, if_pos hnr, hfind, MapleM.ok_bind, hins, MapleM.ok_bind, hs']
    rfl
  · rw [hs']
    exact h.root_eq
  · rw [hself, hpar', hpar]
  · exact (h.free.ne_of_label hm hlabel).symm
  · rw [hvs]
    exact ((hperm.append_right vR).append_left vL).trans List.perm_middle

/-- **A full leaf is split**: the area is inserted, and all areas stay when there are enough nodes for the
splits above. -/
theorem mapleInsert_split {q : ℕ} (h : s.Tree L tight height root vs (q :: free))
    (hpath : s.Path L tight height root 0 lo hi par leaf vL vR up)
    (hleaf : s.Subtree L tight 0 lo hi par leaf w) (hvs : vs = vL ++ (w ++ vR))
    (hfull : w.length = mapleNodeSlots) (hvalid : (s.vmas v).Valid)
    (hno : ∀ u ∈ w, ¬ (s.vmas v).Overlaps (s.vmas u)) (hlo : lo ≤ (s.vmas v).lo)
    (hhi : (s.vmas v).lo < hi) (ht : tight → (s.vmas v).hi ≤ hi) :
    ∃ s' L' height' root' free' vs', mapleInsert mapleNodeSlots leaf v (s.vmas v).start s =
        .ok (s', 0) ∧
      s'.vmas = s.vmas ∧ s'.vmaFree = s.vmaFree ∧ s'.count = s.count + 1 ∧
      s'.Tree L' tight height' root' vs' free' ∧ vs'.Subperm (v :: vs) ∧
      (up ≤ free.length → vs'.Perm (v :: vs)) := by
  obtain ⟨hlabel, hpar, hin⟩ := hleaf
  have hq : L q = none := h.free.fresh q List.mem_cons_self
  have hlq : leaf ≠ q := ne_of_label hq hlabel
  obtain ⟨a, b, key, pos, n', w₁, w₂, hsplit, hfind, hins, hpar₁, hpar₂, hperm, hleaves⟩ :=
    hin.splitInsert hfull hvalid hno hlo hhi ht MapleNode.empty
  obtain ⟨n₁, hn₁⟩ : ∃ n₁, n₁ = if (s.vmas v).start < key then n' else a := ⟨_, rfl⟩
  obtain ⟨n₂, hn₂⟩ : ∃ n₂, n₂ = if (s.vmas v).start < key then b else n' := ⟨_, rfl⟩
  obtain ⟨s₁, hs₁⟩ : ∃ s₁ : MapleState, s₁ = { s with
      nodes := update (update s.nodes leaf n₁) q n₂, nodeFree := (s.nodes q).parent } := ⟨_, rfl⟩
  have hnode₁ : s₁.nodes leaf = n₁ := by
    rw [hs₁]
    dsimp only
    rw [Function.update_of_ne hlq, Function.update_self]
  have hnode₂ : s₁.nodes q = n₂ := by
    rw [hs₁]
    exact Function.update_self ..
  have hother : ∀ m, m ≠ leaf → m ≠ q → s₁.nodes m = s.nodes m := by
    intro m hml hmq
    rw [hs₁]
    dsimp only
    rw [Function.update_of_ne hmq, Function.update_of_ne hml]
  have hvmas : s₁.vmas = s.vmas := by rw [hs₁]
  obtain ⟨hleaf₁, hleaf₂⟩ := hleaves s₁ leaf q hvmas (hnode₁.trans hn₁) (hnode₂.trans hn₂)
  -- the halves in the place of the leaf
  have hpath₁ : s₁.Path (update L q (some (0, key.toNat))) tight height root 0 lo hi par leaf vL vR up := by
    refine hpath.congr (fun m hm hno => ?_) fun u _ => by rw [hvmas]
    have hmq : m ≠ q := by
      rintro rfl
      exact hm hq
    refine ⟨hother m ?_ hmq, Function.update_of_ne hmq ..⟩
    rintro rfl
    exact hno ⟨0, lo, hlabel, Nat.one_pos, le_rfl, hin.lt⟩
  have hsub₁ : s₁.Subtree (update L q (some (0, key.toNat))) tight 0 lo key.toNat par leaf w₁ :=
    ⟨(Function.update_of_ne hlq ..).trans hlabel, by rw [hnode₁, hn₁, hpar₁, hpar], hleaf₁⟩
  have hsub₂ : s₁.Subtree (update L q (some (0, key.toNat))) tight 0 key.toNat hi none q w₂ :=
    ⟨Function.update_self .., by rw [hnode₂, hn₂, hpar₂]; rfl, hleaf₂⟩
  have hfree₁ : s₁.FreeNodes (update L q (some (0, key.toNat))) free := by
    refine h.free.take (by rw [hs₁]) (fun m hm => hother m ?_ ?_) _
    · exact (h.free.ne_of_label (List.mem_cons_of_mem q hm) hlabel).symm
    · rintro rfl
      exact (List.nodup_cons.mp h.free.nodup).1 hm
  obtain ⟨s', L', height', root', free', vs', hres, hvmas', hvmaFree, hcount, htree, hsub, hall⟩ :=
    mapleInsertUp_spec mapleMaxNodes (by rw [hs₁]; exact h.root_eq) hpath₁ hsub₁ hsub₂ rfl hfree₁
      h.height_lt
  have hmove : (vL ++ ((w₁ ++ w₂) ++ vR)).Perm (v :: vs) := by
    rw [hvs]
    exact ((hperm.append_right vR).append_left vL).trans List.perm_middle
  have htree' : MapleState.Tree { s' with count := s'.count + 1 } L' tight height' root' vs' free' := by
    refine ⟨htree.root_eq, htree.subtree.congr (fun m _ => ⟨rfl, rfl⟩) fun u _ => rfl, ?_⟩
    exact htree.free.congr rfl fun m _ => rfl
  refine ⟨{ s' with count := s'.count + 1 }, L', height', root', free', vs', ?_, hvmas'.trans hvmas,
    by rw [hvmaFree, hs₁], by rw [hcount, hs₁], htree', hsub.subperm.trans hmove.subperm,
    fun hle => (hall hle) ▸ hmove⟩
  have hnr : ¬ (s.nodes leaf).nrEntries.toNat < mapleNodeSlots := by
    rw [hin.entries.nrEntries, List.length_map, hfull]
    exact lt_irrefl _
  -- which half the code writes to is decided by the key, so the new nodes are those chosen above
  have hhalf : update (update (update s.nodes q MapleNode.empty) leaf a) q b
      (if (s.vmas v).start < key then leaf else q) = if (s.vmas v).start < key then a else b := by
    split
    · rw [Function.update_of_ne hlq, Function.update_self]
    · exact Function.update_self ..
  have hwrite : update (update (update (update s.nodes q MapleNode.empty) leaf a) q b)
      (if (s.vmas v).start < key then leaf else q) n' = update (update s.nodes leaf n₁) q n₂ := by
    have hdrop : ∀ x y, update (update (update s.nodes q MapleNode.empty) leaf x) q y =
        update (update s.nodes leaf x) q y := fun x y => by
      rw [Function.update_comm hlq.symm, Function.update_idem]
    rw [hn₁, hn₂]
    split
    · rw [Function.update_comm hlq.symm, Function.update_idem, hdrop]
    · rw [Function.update_idem, hdrop]
  rw [mapleInsert, if_neg hnr, h.free.alloc_some]
  dsimp only
  rw [Function.update_self, Function.update_of_ne hlq, hsplit, MapleM.ok_bind]
  dsimp only [MapleState.setNode]
  rw [hhalf, hfind, MapleM.ok_bind, hins, MapleM.ok_bind, hwrite, ← hs₁, hres]
  rfl

end Tree

end Microkernel.Vma
