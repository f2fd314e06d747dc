import Microkernel.Core.Shell

/-! # A session with the shell

Whatever is typed, line after line, the shell shows it and obeys it.

The shell is the composition of four parts that are described in their own modules: the polls of the
console, `shell_readline`, `shell_tokenize`, and the table of the commands.

* **`readlineLoop_polls`** — a line takes the polls that bring its characters and its newline, and leaves
  the others for the next line.
* **`shellRound_spec`** — one round of the loop of `shell_run`.
* **`shell_session`** — the whole session, by induction on the lines.
-/

namespace Microkernel.Core

/-! ### Names -/

section
variable {a b : ℕ → U8} {p q : ℕ} {s t : List U8}

/-- **`streq` compares strings.** -/
theorem streq_spec (hs : StringAt 0#8 a p s) (ht : StringAt 0#8 b q t) :
    ∃ n, ((streqLoop a b).run n (p, q)).result = some (decide (s = t)) := by
  induction s generalizing p q t with
  | nil =>
    have ha := stringAt_nil.mp hs
    refine ⟨1, WhileLoop.Ends.run (.inr ⟨by simp [streqLoop, ha], ?_⟩) 0⟩
    refine decide_eq_decide.mpr ?_
    rw [ha, ht.head]
    cases t with
    | nil => simp
    | cons d t => simpa using (stringAt_cons.mp ht).2.1
  | cons c s ih =>
    obtain ⟨ha, hc, hs⟩ := stringAt_cons.mp hs
    cases t with
    | nil =>
      have hb := stringAt_nil.mp ht
      refine ⟨1, WhileLoop.Ends.run (.inr ⟨by simp [streqLoop, hb], ?_⟩) 0⟩
      refine decide_eq_decide.mpr (iff_of_false (fun h => hc (ha.symm.trans h.1)) ?_)
      exact List.cons_ne_nil _ _
    | cons d t =>
      obtain ⟨hb, hd, ht⟩ := stringAt_cons.mp ht
      have htest : (streqLoop a b).test (p, q) = true := by simp [streqLoop, ha, hb, hc, hd]
      by_cases hcd : c = d
      · obtain ⟨n, hn⟩ := ih hs ht
        have hnext : (streqLoop a b).Next (p, q) (p + 1, q + 1) :=
          ⟨htest, if_neg (by rw [ha, hb]; exact not_not.mpr hcd)⟩
        refine ⟨n + 1, ?_⟩
        rw [WhileLoop.run_next hnext]
        exact hn.trans (congrArg some (decide_eq_decide.mpr (by simp [hcd])))
      · refine ⟨1, WhileLoop.Ends.run (.inl ⟨htest, ?_⟩) 0⟩
        have hne : c :: s ≠ d :: t := fun h => hcd (List.cons.inj h).1
        rw [decide_eq_false hne]
        exact if_pos (by rwa [ha, hb])

/-- A constant is a string. -/
theorem stringAt_constant (hs : 0#8 ∉ s) : StringAt 0#8 (constant s) 0 s := by
  have hreads : ∀ (l r : List U8), Reads (constant (l ++ r)) l.length (r ++ [0#8]) := by
    intro l r
    induction r generalizing l with
    | nil => simp [constant]
    | cons c r ih =>
      refine ⟨by simp [constant], ?_⟩
      have hnext := ih (l ++ [c])
      rwa [List.append_assoc, List.length_append] at hnext
  exact ⟨hreads [] s, hs⟩

end

/-- Every command is in the table. -/
theorem mem_gCmds (cmd : Command) : cmd ∈ gCmds := by
  cases cmd <;> decide

/-- The names are strings. -/
theorem zero_notMem_name (cmd : Command) : 0#8 ∉ cmd.name :=
  (by decide +kernel : ∀ cmd ∈ gCmds, 0#8 ∉ cmd.name) cmd (mem_gCmds cmd)

/-- The first command with the name is found. -/
theorem findCommand_spec {line : ℕ → U8} {name : ℕ} {w : List U8} (hw : StringAt 0#8 line name w)
    (cmds : List Command) :
    ∃ n, ∀ m, n ≤ m → findCommand line name m cmds = some (cmds.find? fun cmd => w = cmd.name) := by
  induction cmds with
  | nil => exact ⟨0, fun _ _ => rfl⟩
  | cons cmd cmds ih =>
    obtain ⟨n, hn⟩ := streq_spec hw (stringAt_constant (zero_notMem_name cmd))
    obtain ⟨n', hn'⟩ := ih
    refine ⟨max n n', fun m hm => ?_⟩
    rw [findCommand, WhileLoop.run_result_mono hn ((le_max_left ..).trans hm), hn, Option.bind_some]
    by_cases heq : w = cmd.name
    · rw [if_pos (decide_eq_true heq),
        List.find?_cons_of_pos (p := fun cmd => decide (w = Command.name cmd)) (decide_eq_true heq)]
    · rw [if_neg (by simpa using heq),
        List.find?_cons_of_neg (p := fun cmd => decide (w = Command.name cmd)) (by simpa using heq)]
      exact hn' m ((le_max_right ..).trans hm)

/-! ### The words of a line -/

/-- The words are in front of the terminator of the line. -/
theorem tokenizeLoop_argv {cap : ℤ} {line : ℕ → U8} {n : ℕ} (h0 : line n = 0#8) {r : (ℕ → U8) × List ℕ}
    (hr : ∃ rounds, ((tokenizeLoop cap).run rounds ⟨.line, 0, line, []⟩).result = some r) :
    r.1 n = 0#8 ∧ ∀ q ∈ r.2, q ≤ n := by
  obtain ⟨t, hcomes, hends⟩ := WhileLoop.exists_result_iff.mp hr
  -- the pointer does not pass the terminator
  have hinv : t.line n = 0#8 ∧ t.p ≤ n ∧ ∀ q ∈ t.argv, q ≤ n := by
    refine hcomes.invariant (I := fun t => t.line n = 0#8 ∧ t.p ≤ n ∧ ∀ q ∈ t.argv, q ≤ n)
      ⟨h0, Nat.zero_le _, fun _ h => absurd h List.not_mem_nil⟩ fun s s' hI hnext => ?_
    obtain ⟨phase, p, line, argv⟩ := s
    obtain ⟨hzero, hp, hargv⟩ := hI
    dsimp only at hzero hp hargv
    have hlt : line p ≠ 0#8 → p < n := fun hne => lt_of_le_of_ne hp fun h => hne (h ▸ hzero)
    have hbody := hnext.2
    unfold tokenizeLoop at hbody
    cases phase with
    | line =>
      dsimp only at hbody
      split at hbody
      · exact absurd hbody Sum.inl_ne_inr
      · obtain rfl := Sum.inr.inj hbody
        exact ⟨hzero, hp, hargv⟩
    | spaces =>
      dsimp only at hbody
      split at hbody
      · rename_i hc
        obtain rfl := Sum.inr.inj hbody
        exact ⟨hzero, hlt hc.1, hargv⟩
      split at hbody
      · exact absurd hbody Sum.inl_ne_inr
      split at hbody
      · exact absurd hbody Sum.inl_ne_inr
      · obtain rfl := Sum.inr.inj hbody
        refine ⟨hzero, hp, fun q hq => ?_⟩
        rcases List.mem_append.mp hq with hq | hq
        · exact hargv q hq
        · rw [List.mem_singleton.mp hq]
          exact hp
    | word =>
      dsimp only at hbody
      split at hbody
      · rename_i hc
        obtain rfl := Sum.inr.inj hbody
        exact ⟨hzero, hlt hc.1, hargv⟩
      split at hbody
      · rename_i hc
        obtain rfl := Sum.inr.inj hbody
        refine ⟨?_, hlt hc, hargv⟩
        by_cases hn : n = p
        · rw [hn]
          exact Function.update_self ..
        · exact (Function.update_of_ne hn ..).trans hzero
      · obtain rfl := Sum.inr.inj hbody
        exact ⟨hzero, hp, hargv⟩
  have hr : r = (t.line, t.argv) := by
    rcases hends with ⟨-, hbody⟩ | ⟨htest, -⟩
    · unfold tokenizeLoop at hbody
      dsimp only at hbody
      split at hbody <;> (repeat' split at hbody) <;> first | exact (Sum.inl.inj hbody).symm | cases hbody
    · exact absurd htest (by simp [tokenizeLoop])
  rw [hr]
  exact ⟨hinv.1, hinv.2.2⟩

/-- A string that begins in front of a terminator ends there at the latest. -/
theorem stringAt_length_le {mem : ℕ → U8} {q n : ℕ} {w : List U8} (hw : StringAt 0#8 mem q w)
    (h0 : mem n = 0#8) (hq : q ≤ n) : q + w.length ≤ n := by
  induction w generalizing q with
  | nil => exact hq
  | cons c w ih =>
    obtain ⟨hc, hne, hw⟩ := stringAt_cons.mp hw
    have hlt : q < n := lt_of_le_of_ne hq fun h => hne (by rw [← hc, h, h0])
    have hle := ih hw hlt
    rw [List.length_cons]
    omega

/-- `%s` finds a string of the line. -/
theorem stringsIn_eq {line : ℕ → U8} {addr q : ℕ} {w : List U8} (hw : StringAt 0#8 line q w)
    (hlength : w.length < 128) (hq : addr + q < 2 ^ 32) :
    stringsIn line addr (BitVec.ofNat 32 (addr + q)) = w := by
  have hreads : ∀ {m p : ℕ} {w : List U8}, StringAt 0#8 line p w → w.length < m →
      ((List.range m).map fun i => line (p + i)).takeWhile (· ≠ 0#8) = w := by
    intro m
    induction m with
    | zero => exact fun _ h => absurd h (Nat.not_lt_zero _)
    | succ m ih =>
      intro p w hw hlt
      rw [List.range_succ_eq_map, List.map_cons, List.map_map, Nat.add_zero]
      cases w with
      | nil => rw [List.takeWhile_cons, stringAt_nil.mp hw, if_neg (by decide)]
      | cons c w =>
        obtain ⟨hc, hne, hw⟩ := stringAt_cons.mp hw
        have hnext := ih hw (Nat.lt_of_succ_lt_succ hlt)
        rw [List.takeWhile_cons, hc, if_pos (by simpa using hne)]
        refine congrArg (c :: ·) (Eq.trans ?_ hnext)
        refine congrArg _ (List.map_congr_left fun i _ => ?_)
        exact congrArg line (by rw [Nat.add_right_comm, Nat.add_assoc])
  unfold stringsIn
  rw [BitVec.toNat_ofNat, Nat.mod_eq_of_lt hq, Nat.add_sub_cancel_left]
  exact hreads hw hlength

/-- **A name of no command is reported.** -/
theorem vprintk_unknown (strings : U32 → List U8) (args : ℕ → U32) (hne : args 0 ≠ 0#32) :
    ∃ n, (vprintk strings (constant (cString "Unknown command: %s\n")) args n).result =
      some (cString "Unknown command: " ++ strings (args 0) ++ [0x0A#8]) := by
  obtain ⟨htext, hformat, hzero⟩ : (∀ c ∈ cString "Unknown command: ", c ≠ 0x25#8) ∧
      cString "Unknown command: %s\n" = cString "Unknown command: " ++ [0x25#8, 0x73#8, 0x0A#8] ∧
        0#8 ∉ cString "Unknown command: %s\n" := by decide +kernel
  have hfield : FieldBefore [] [] 0x73#8 := ⟨by decide, by decide, by decide, rfl⟩
  -- the pieces of the format
  let ds : List Directive := (cString "Unknown command: ").pmap Directive.char htext ++
    [.conversion [] [] 0x73#8 hfield, .char 0x0A#8 (by decide)]
  have hchars : ∀ (l : List U8) (hl : ∀ c ∈ l, c ≠ 0x25#8) (es : List Directive),
      (l.pmap Directive.char hl ++ es).flatMap Directive.text = l ++ es.flatMap Directive.text ∧
      ((∀ d ∈ es, d.Fits) → ∀ d ∈ l.pmap Directive.char hl ++ es, d.Fits) ∧
      printedBy strings args 0 (l.pmap Directive.char hl ++ es) = l ++ printedBy strings args 0 es := by
    intro l hl es
    induction l with
    | nil => exact ⟨rfl, id, rfl⟩
    | cons c l ih =>
      obtain ⟨htext, hfits, hprinted⟩ := ih fun c hc => hl c (List.mem_cons_of_mem _ hc)
      refine ⟨congrArg (c :: ·) htext, fun hes => List.forall_mem_cons.mpr ⟨trivial, hfits hes⟩, ?_⟩
      exact congrArg (c :: ·) hprinted
  obtain ⟨htexts, hfits, hprinted⟩ := hchars _ htext
    [.conversion [] [] 0x73#8 hfield, .char 0x0A#8 (by decide)]
  have hstring := stringAt_constant hzero
  have hread : Reads (constant (cString "Unknown command: %s\n")) 0 (ds.flatMap Directive.text) := by
    rw [htexts]
    exact hformat ▸ (reads_append.mp hstring.1).1
  have hnul : 0#8 ∉ ds.flatMap Directive.text := by
    rw [htexts]
    exact hformat ▸ hzero
  obtain ⟨arg, hcomes⟩ := comes_directives strings args 0 ds
    (hfits (List.forall_mem_cons.mpr ⟨show widthValue [] < 2 ^ 31 by decide,
      List.forall_mem_singleton.mpr trivial⟩)) hread hnul []
  have hlength : 0 + (ds.flatMap Directive.text).length = (cString "Unknown command: %s\n").length := by
    rw [Nat.zero_add, htexts, hformat]
    rfl
  have hend : constant (cString "Unknown command: %s\n")
      (0 + (ds.flatMap Directive.text).length) = 0#8 := by
    rw [hlength]
    simp [constant]
  have hout : [] ++ printedBy strings args 0 ds =
      cString "Unknown command: " ++ strings (args 0) ++ [0x0A#8] := by
    rw [List.nil_append, hprinted, List.append_assoc]
    refine congrArg _ ?_
    change paddedField [] 0 [] (if args 0 = 0#32 then cString "(null)" else strings (args 0)) ++ [0x0A#8] = _
    rw [if_neg hne]
    simp [paddedField]
  rw [hout] at hcomes
  exact hcomes.exists_result_iff.mpr ⟨1, WhileLoop.Ends.run (.inl ⟨rfl, if_pos hend⟩) 0⟩

/-! ### Dispatch -/

section
variable {K : Type*}

/-- **A line is obeyed**, or its command does not return. -/
theorem shellDispatch_spec (exec : Exec K) {addr : ℕ} (hpos : 0 < addr) (haddr : addr + 128 ≤ 2 ^ 32) {line : ℕ → U8}
    {s : List U8} (hs : StringAt 0#8 line 0 s) (hlength : s.length < 128) (k : K) :
    ∃ n, (∃ k' line' out, (∀ m, n ≤ m → shellDispatch exec addr line k m = some (k', line', out)) ∧
        Obeyed exec s k k' out) ∨
      (∀ m, n ≤ m → shellDispatch exec addr line k m = none) ∧ Stuck exec s k := by
  by_cases hblank : line 0 = 0#8
  · obtain rfl : s = [] := by
      cases s with
      | nil => rfl
      | cons c s => exact absurd hblank (by rw [hs.head]; exact (stringAt_cons.mp hs).2.1)
    exact ⟨0, .inl ⟨k, line, [], fun m _ => if_pos hblank, .blank rfl⟩⟩
  obtain ⟨line', argv, ⟨n, hn⟩, hcuts⟩ := tokenizeLoop_spec 16 [] hs
  rw [List.nil_append] at hn
  have htokens := hcuts.tokens
  rw [show ((16 : ℤ) - (([] : List ℕ).length : ℕ)).toNat = 16 by decide] at htokens
  have hend : line s.length = 0#8 := by
    have hlast := (reads_append.mp hs.1).2
    rw [Nat.zero_add] at hlast
    exact hlast.1
  obtain ⟨hend', hargv⟩ := tokenizeLoop_argv hend ⟨n, hn⟩
  have htokenize : ∀ m, n ≤ m → (shellTokenize line 16 m).result = some (line', argv) := by
    intro m hm
    unfold shellTokenize
    rw [if_neg (by decide), WhileLoop.run_result_mono hn hm]
    exact hn
  have hdispatch : ∀ m, n ≤ m → shellDispatch exec addr line k m = runWords exec addr line' k m argv := by
    intro m hm
    unfold shellDispatch
    rw [if_neg hblank, htokenize m hm, Option.bind_some]
  cases hwords : words isSpace s with
  | nil =>
    rw [hwords, List.take_nil, List.forall₂_nil_right_iff] at htokens
    refine ⟨n, .inl ⟨k, line', [], fun m hm => ?_, .blank hwords⟩⟩
    rw [hdispatch m hm, htokens]
    rfl
  | cons w rest =>
    rw [hwords] at htokens
    obtain ⟨name, argv, hname, -, rfl⟩ := List.forall₂_cons_right_iff.mp htokens
    obtain ⟨n', hn'⟩ := findCommand_spec hname gCmds
    have hfound : ∀ m, max n n' ≤ m → shellDispatch exec addr line k m =
        runFound exec addr line' k m name argv (gCmds.find? fun cmd => w = cmd.name) := by
      intro m hm
      rw [hdispatch m ((le_max_left ..).trans hm), runWords, hn' m ((le_max_right ..).trans hm),
        Option.bind_some]
    cases hcmd : gCmds.find? fun cmd => w = cmd.name with
    | some cmd =>
      rw [hcmd] at hfound
      have heq : cmd.name = w := by
        have hp := List.find?_some hcmd
        exact (of_decide_eq_true hp).symm
      cases hexec : exec cmd line' (name :: argv) k with
      | some r =>
        exact ⟨max n n', .inl ⟨r.1, r.2.1, r.2.2, fun m hm => (hfound m hm).trans hexec,
          .command hwords heq htokens hexec⟩⟩
      | none =>
        exact ⟨max n n', .inr ⟨fun m hm => (hfound m hm).trans hexec, w, rest, cmd, line', name :: argv,
          hwords, heq, htokens, hexec⟩⟩
    | none =>
      rw [hcmd] at hfound
      have hnone : ∀ cmd : Command, cmd.name ≠ w := by
        intro cmd heq
        exact List.find?_eq_none.mp hcmd cmd (mem_gCmds cmd) (decide_eq_true heq.symm)
      have hle := stringAt_length_le hname hend' (hargv name List.mem_cons_self)
      have hptr : (BitVec.ofNat 32 (addr + name)).toNat = addr + name := Nat.mod_eq_of_lt (by omega)
      obtain ⟨n'', hn''⟩ := vprintk_unknown (stringsIn line' addr) (fun _ => BitVec.ofNat 32 (addr + name))
        (fun h => by rw [h] at hptr; simp at hptr; omega)
      rw [stringsIn_eq hname (by omega) (by omega)] at hn''
      refine ⟨max (max n n') n'', .inl ⟨k, line', _, fun m hm => ?_, .unknown hwords hnone⟩⟩
      rw [hfound m ((le_max_left ..).trans hm), runFound]
      unfold vprintk at hn'' ⊢
      rw [WhileLoop.run_result_mono hn'' ((le_max_right ..).trans hm), hn'', Option.map_some]

end

/-! ### Reading from the console -/

/-- A character changes nothing but the line. -/
theorem readlineChar_polls {cap : ℕ} {c : U8} {s t : LineReader}
    (h : readlineChar cap c s = .inl t ∨ readlineChar cap c s = .inr t) : t.polls = s.polls := by
  unfold readlineChar at h
  rcases h with h | h
  all_goals
    repeat' split at h
    all_goals
      first
      | cases h
        rfl
      | exact absurd h (by simp)

/-- **The polls that a line takes**: those that bring its characters and the newline. -/
theorem readlineLoop_polls {poll : ℕ → Poll} {cap rounds : ℕ} {t : LineReader} :
    ∀ {n : ℕ} {typed : List U8} {s : LineReader}, 0x0A#8 ∉ typed →
      (List.range n).filterMap (fun i => consoleTryGetc (poll (s.polls + i))) = typed ++ [0x0A#8] →
      ((readlineLoop poll cap).run rounds s).result = some t →
      ∃ c ≤ n, t.polls = s.polls + c ∧
        (List.range c).filterMap (fun i => consoleTryGetc (poll (s.polls + i))) = typed ++ [0x0A#8] := by
  induction rounds with
  | zero => exact fun _ _ h => absurd h (Option.some_ne_none t).symm
  | succ rounds ih =>
    intro n typed s htyped hpolls hrun
    obtain ⟨n, rfl⟩ : ∃ m, n = m + 1 := by
      refine Nat.exists_eq_succ_of_ne_zero fun h => ?_
      rw [h] at hpolls
      exact absurd hpolls.symm (List.append_ne_nil_of_right_ne_nil _ (List.cons_ne_nil _ _))
    -- one poll and the polls behind it
    have hsplit : ∀ m, (List.range (m + 1)).filterMap (fun i => consoleTryGetc (poll (s.polls + i))) =
        (consoleTryGetc (poll s.polls)).toList ++
          (List.range m).filterMap fun i => consoleTryGetc (poll (s.polls + 1 + i)) := by
      intro m
      have hlater : ((fun i => consoleTryGetc (poll (s.polls + i))) ∘ Nat.succ) =
          fun i => consoleTryGetc (poll (s.polls + 1 + i)) := by
        funext i
        exact congrArg (fun j => consoleTryGetc (poll j)) (by omega)
      rw [List.range_succ_eq_map, List.filterMap_cons, Nat.add_zero, List.filterMap_map, hlater]
      cases consoleTryGetc (poll s.polls) <;> rfl
    rw [hsplit] at hpolls
    have hnothing : consoleTryGetc (poll s.polls) = none →
        (readlineLoop poll cap).body s = .inr { s with polls := s.polls + 1 } := by
      intro h
      unfold readlineLoop
      simp only [h]
    have hchar : ∀ c, consoleTryGetc (poll s.polls) = some c →
        (readlineLoop poll cap).body s = readlineChar cap c { s with polls := s.polls + 1 } := by
      intro c h
      unfold readlineLoop
      simp only [h]
    -- the loop goes on
    have hnext : ∀ {u : LineReader} {typed' : List U8}, 0x0A#8 ∉ typed' →
        typed = (consoleTryGetc (poll s.polls)).toList ++ typed' →
        (readlineLoop poll cap).body s = .inr u → u.polls = s.polls + 1 →
        ∃ c ≤ n + 1, t.polls = s.polls + c ∧
          (List.range c).filterMap (fun i => consoleTryGetc (poll (s.polls + i))) = typed ++ [0x0A#8] := by
      intro u typed' htyped' heq hu hpos
      rw [WhileLoop.run_next ⟨rfl, hu⟩] at hrun
      rw [heq, List.append_assoc, List.append_cancel_left_eq, ← hpos] at hpolls
      obtain ⟨c, hc, ht, hlater⟩ := ih htyped' hpolls hrun
      refine ⟨c + 1, Nat.succ_le_succ hc, by rw [ht, hpos]; omega, ?_⟩
      rw [hsplit, ← hpos, hlater, heq, List.append_assoc]
    cases hc : consoleTryGetc (poll s.polls) with
    | none =>
      have hbody := hnothing hc
      rw [hc] at hnext
      exact hnext htyped rfl hbody rfl
    | some c =>
      have hbody := hchar c hc
      rw [hc] at hpolls hnext hsplit
      dsimp only [Option.toList_some] at hpolls hsplit
      by_cases hnewline : c = 0x0A#8
      · subst hnewline
        obtain rfl : typed = [] := by
          cases typed with
          | nil => rfl
          | cons d typed =>
            obtain ⟨rfl, -⟩ := List.cons.inj hpolls
            exact absurd List.mem_cons_self htyped
        rw [WhileLoop.run_leave rfl hbody] at hrun
        obtain rfl := Option.some.inj hrun
        exact ⟨1, by omega, rfl, hsplit 0⟩
      · cases typed with
        | nil => exact absurd (List.cons.inj hpolls).1 hnewline
        | cons d typed =>
          obtain ⟨rfl, -⟩ := List.cons.inj hpolls
          rw [List.mem_cons, not_or] at htyped
          obtain ⟨u, hu⟩ : ∃ u, readlineChar cap c { s with polls := s.polls + 1 } = .inr u := by
            unfold readlineChar
            rw [if_neg hnewline]
            repeat' split
            all_goals exact ⟨_, rfl⟩
          exact hnext htyped.2 rfl (hbody.trans hu) (readlineChar_polls (.inr hu))

/-- The line that was typed fits the room and holds no control character. -/
theorem typedLine_chars (room : ℕ) (typed : List U8) :
    (∀ c ∈ typedLine room typed, 0x20#8 ≤ c) ∧ (typedLine room typed).length ≤ room := by
  have hstep : ∀ (line : List U8), (∀ c ∈ line, 0x20#8 ≤ c) ∧ line.length ≤ room → ∀ c,
      (∀ d ∈ typeChar room line c, 0x20#8 ≤ d) ∧ (typeChar room line c).length ≤ room := by
    rintro line ⟨hline, hroom⟩ c
    unfold typeChar
    split
    · exact ⟨fun d hd => hline d (List.mem_of_mem_dropLast hd), by rw [List.length_dropLast]; omega⟩
    split
    · exact ⟨hline, hroom⟩
    split
    · rename_i hcontrol hlt
      refine ⟨fun d hd => ?_, by rw [List.length_append, List.length_singleton]; omega⟩
      rcases List.mem_append.mp hd with hd | hd
      · exact hline d hd
      · rw [List.mem_singleton.mp hd]
        exact BitVec.not_lt.mp hcontrol
    · exact ⟨hline, hroom⟩
  suffices h : ∀ (typed line : List U8), (∀ c ∈ line, 0x20#8 ≤ c) ∧ line.length ≤ room →
      (∀ c ∈ typed.foldl (typeChar room) line, 0x20#8 ≤ c) ∧
        (typed.foldl (typeChar room) line).length ≤ room from
    h typed [] ⟨fun _ h => absurd h List.not_mem_nil, Nat.zero_le _⟩
  intro typed
  induction typed with
  | nil => exact fun line h => h
  | cons c typed ih => exact fun line h => ih _ (hstep line h c)

/-- Polls that bring a list and more begin with polls that bring the list. -/
theorem exists_range_of_append {f : ℕ → Option U8} {n : ℕ} {l l' : List U8}
    (h : (List.range n).filterMap f = l ++ l') : ∃ c ≤ n, (List.range c).filterMap f = l := by
  obtain ⟨l₁, l₂, hsplit, hl, -⟩ := List.filterMap_eq_append_iff.mp h
  have htake : l₁ = List.range (min l₁.length n) := by
    rw [← List.take_range, hsplit, List.take_left]
  exact ⟨min l₁.length n, min_le_right .., by rw [← htake, hl]⟩

/-! ### A session -/

section
variable {K : Type*} {poll : ℕ → Poll} {addr : ℕ}

/-- **One round**: the line that was typed is shown and obeyed, or its command does not return. -/
theorem shellRound_spec (exec : Exec K) (hpos : 0 < addr) (haddr : addr + 128 ≤ 2 ^ 32) (s : Shell K) {n : ℕ}
    {typed : List U8} (htyped : 0x0A#8 ∉ typed)
    (hpolls : (List.range n).filterMap (fun i => consoleTryGetc (poll (s.polls + i))) = typed ++ [0x0A#8]) :
    Stuck exec (typedLine 127 typed) s.kernel ∨
    ∃ s' R echo out, (∀ rounds, R ≤ rounds → shellRound poll exec addr rounds s = some s') ∧
      (∃ c ≤ n, s'.polls = s.polls + c ∧
        (List.range c).filterMap (fun i => consoleTryGetc (poll (s.polls + i))) = typed ++ [0x0A#8]) ∧
      (∀ screen : Screen, screen.Shows (screen.puts echo) (typedLine 127 typed)) ∧
      Obeyed exec (typedLine 127 typed) s.kernel s'.kernel out ∧
      s'.output = s.output ++ (cString "szy-kernel > ").flatMap serialPutc ++ (echo ++ [0x0D#8, 0x0A#8]) ++
        out := by
  have hstart : LineReader.Holds ⟨0, 0, s.line, [], []⟩ 128 [] :=
    ⟨rfl, by decide, trivial, fun i hi => absurd hi List.not_mem_nil, fun screen => screen.shows_nil⟩
  obtain ⟨later, hlater⟩ : ∃ later : ℕ → Poll, later = fun i => poll (s.polls + i) := ⟨_, rfl⟩
  have hfound : ∀ i, consoleTryGetc (poll (s.polls + i)) = consoleTryGetc (later (0 + i)) := by
    intro i
    rw [hlater, Nat.zero_add]
  simp only [hfound] at hpolls ⊢
  obtain ⟨t, ⟨R, hR⟩, hreturned⟩ :=
    @readlineLoop_spec later 128 n typed htyped ⟨0, 0, s.line, [], []⟩ [] hpolls hstart
  obtain ⟨c, hc, hpos', hconsumed⟩ :=
    @readlineLoop_polls later 128 R t n typed ⟨0, 0, s.line, [], []⟩ htyped hpolls hR
  have hread : ∀ rounds, R ≤ rounds →
      (shellReadline (fun i => poll (s.polls + i)) s.line 128 rounds).result = some t := by
    intro rounds hle
    rw [← hlater]
    unfold shellReadline
    rw [if_neg (by decide), WhileLoop.run_result_mono hR hle]
    exact hR
  obtain ⟨hchars, hroom⟩ := typedLine_chars 127 typed
  have hstring : StringAt 0#8 t.buf 0 (typedLine 127 typed) :=
    ⟨hreturned.buf, fun h => absurd (hchars _ h) (by decide)⟩
  obtain ⟨echo, hecho, hshows⟩ := hreturned.echo
  obtain ⟨R', hcases⟩ := shellDispatch_spec exec hpos haddr hstring (by omega) s.kernel
  rcases hcases with ⟨k', line', out, hdispatch, hobeyed⟩ | ⟨-, hstuck⟩
  · refine .inr ⟨⟨s.polls + t.polls, line', k',
      s.output ++ (cString "szy-kernel > ").flatMap serialPutc ++ t.echo ++ out⟩, max R R', echo, out,
      fun rounds hle => ?_, ⟨c, hc, ?_, ?_⟩, hshows, hobeyed, ?_⟩
    · unfold shellRound
      rw [hread rounds ((le_max_left ..).trans hle), Option.bind_some,
        hdispatch rounds ((le_max_right ..).trans hle), Option.map_some]
    · rw [hpos', Nat.zero_add]
    · exact hconsumed
    · rw [hecho]
  · exact .inl hstuck

/-- The lines that the polls bring are shown and obeyed one after the other. -/
theorem shellRun_session (exec : Exec K) (hpos : 0 < addr) (haddr : addr + 128 ≤ 2 ^ 32) (line : ℕ → U8) (k : K)
    {n : ℕ} {ts : List (List U8)} {rest : List U8} (hts : ∀ typed ∈ ts, 0x0A#8 ∉ typed)
    (hpolls : (List.range n).filterMap (fun i => consoleTryGetc (poll i)) =
      ts.flatMap (· ++ [0x0A#8]) ++ rest) :
    ∃ m ≤ ts.length, ∃ s, (∃ R, ∀ rounds, R ≤ rounds →
        shellRun poll exec addr rounds m (Shell.start line k) = some s) ∧
      Session exec k (Shell.start line k).output ((ts.take m).map (typedLine 127)) s.kernel s.output ∧
      ∀ _ : m < ts.length, Stuck exec (typedLine 127 ts[m]) s.kernel := by
  -- the first `j` lines, with the polls that they take
  suffices h : ∀ j ≤ ts.length, ∃ m ≤ j, ∃ s, (∃ R, ∀ rounds, R ≤ rounds →
        shellRun poll exec addr rounds m (Shell.start line k) = some s) ∧
      Session exec k (Shell.start line k).output ((ts.take m).map (typedLine 127)) s.kernel s.output ∧
      (∀ h : m < ts.length, m < j → Stuck exec (typedLine 127 ts[m]) s.kernel) ∧
      s.polls ≤ n ∧ (List.range s.polls).filterMap (fun i => consoleTryGetc (poll i)) =
        (ts.take m).flatMap (· ++ [0x0A#8]) by
    obtain ⟨m, hm, s, hrun, hsession, hstuck, -⟩ := h ts.length le_rfl
    exact ⟨m, hm, s, hrun, hsession, fun h => hstuck h h⟩
  intro j
  induction j with
  | zero =>
    intro _
    exact ⟨0, le_rfl, _, ⟨0, fun _ _ => rfl⟩, .nil, fun _ h => absurd h (Nat.not_lt_zero _), Nat.zero_le _, rfl⟩
  | succ j ih =>
    intro hj
    obtain ⟨m, hm, s, ⟨R, hR⟩, hsession, hstuck, hle, hconsumed⟩ := ih (Nat.le_of_succ_le hj)
    rcases Nat.lt_or_eq_of_le hm with hlt | rfl
    · exact ⟨m, by omega, s, ⟨R, hR⟩, hsession, fun h _ => hstuck h hlt, hle, hconsumed⟩
    -- the polls from here on bring the next line first
    have hsplit : ∀ c, (List.range (s.polls + c)).filterMap (fun i => consoleTryGetc (poll i)) =
        (ts.take m).flatMap (· ++ [0x0A#8]) ++
          (List.range c).filterMap fun i => consoleTryGetc (poll (s.polls + i)) := by
      intro c
      rw [List.range_add, List.filterMap_append, hconsumed, List.filterMap_map]
      rfl
    have hdrop : ts = ts.take m ++ ts[m] :: ts.drop (m + 1) := by
      rw [List.getElem_cons_drop, List.take_append_drop]
    have hnext : (List.range (n - s.polls)).filterMap (fun i => consoleTryGetc (poll (s.polls + i))) =
        (ts[m] ++ [0x0A#8]) ++ ((ts.drop (m + 1)).flatMap (· ++ [0x0A#8]) ++ rest) := by
      have hall := hsplit (n - s.polls)
      rw [Nat.add_sub_cancel' hle, hpolls, hdrop, List.flatMap_append, List.flatMap_cons, List.append_assoc,
        List.append_assoc] at hall
      rw [List.take_left' (by rw [List.length_take, min_eq_left (Nat.le_of_succ_le hj)])] at hall
      exact (List.append_cancel_left hall).symm
    obtain ⟨c₀, hc₀, hline⟩ := exists_range_of_append hnext
    have htake : ts.take (m + 1) = ts.take m ++ [ts[m]] := (List.take_concat_get' ..).symm
    rcases shellRound_spec exec hpos haddr s (hts _ (List.getElem_mem _)) hline with
      hstop | ⟨s', R', echo, out, hR', ⟨c, hc, hpolls', hconsumed'⟩, hshows, hobeyed, houtput⟩
    · exact ⟨m, Nat.le_succ m, s, ⟨R, hR⟩, hsession, fun _ _ => hstop, hle, hconsumed⟩
    · refine ⟨m + 1, le_rfl, s', ⟨max R R', fun rounds hr => ?_⟩, ?_, fun _ h => absurd h (lt_irrefl _), ?_, ?_⟩
      · rw [shellRun, hR rounds ((le_max_left ..).trans hr), Option.bind_some]
        exact hR' rounds ((le_max_right ..).trans hr)
      · rw [htake, List.map_append, houtput]
        exact .line hsession hshows hobeyed
      · rw [hpolls']
        omega
      · rw [hpolls', hsplit, hconsumed', htake, List.flatMap_append, List.flatMap_singleton]

/-- **A session with the shell.** Let the keyboard and the serial port bring any lines, with whatever is typed
and taken back in them, at whatever polls. The shell shows each line as it stands when return is pressed, and
obeys it: a line without words does nothing, the first word calls the command of that name with the first
sixteen words as strings, and any other name is reported; this goes on as long as the commands return. -/
theorem shell_session (exec : Exec K) (poll : ℕ → Poll) (addr : ℕ) (hpos : 0 < addr)
    (haddr : addr + 128 ≤ 2 ^ 32) (line : ℕ → U8) (k : K) (n : ℕ) (ts : List (List U8))
    (hts : ∀ typed ∈ ts, 0x0A#8 ∉ typed)
    (hpolls : (List.range n).filterMap (fun i => consoleTryGetc (poll i)) = ts.flatMap (· ++ [0x0A#8])) :
    ∃ m ≤ ts.length, ∃ s, (∃ R, ∀ rounds, R ≤ rounds →
        shellRun poll exec addr rounds m (Shell.start line k) = some s) ∧
      Session exec k (Shell.start line k).output ((ts.take m).map (typedLine 127)) s.kernel s.output ∧
      ∀ _ : m < ts.length, Stuck exec (typedLine 127 ts[m]) s.kernel := by
  have hall : (List.range n).filterMap (fun i => consoleTryGetc (poll i)) =
      ts.flatMap (· ++ [0x0A#8]) ++ [] := by
    rw [List.append_nil]
    exact hpolls
  exact shellRun_session exec hpos haddr line k hts hall

end

/-- The line `pmm` from the serial port, with commands that are counted. -/
theorem shell_session_pmm :
    let exec : Exec ℕ := fun _ line _ k => some (k + 1, line, [])
    let poll : ℕ → Poll := fun i => ⟨none, [0x70#8, 0x6D#8, 0x6D#8, 0x0D#8][i]?⟩
    ∃ s, (∃ R, ∀ rounds, R ≤ rounds → shellRun poll exec 0x1000 rounds 1 (Shell.start (fun _ => 0#8) 0) = some s) ∧
      Session exec 0 (Shell.start (fun _ => 0#8) 0).output [[0x70#8, 0x6D#8, 0x6D#8]] s.kernel s.output := by
  intro exec poll
  obtain ⟨m, hm, s, hrun, hsession, hstuck⟩ := shell_session exec poll 0x1000 (by decide) (by decide)
    (fun _ => 0#8) 0 4 [[0x70#8, 0x6D#8, 0x6D#8]] (by decide) (by decide)
  obtain rfl : m = 1 := by
    refine Nat.le_antisymm hm (Nat.one_le_iff_ne_zero.mpr fun hzero => ?_)
    obtain ⟨_, _, cmd, buf, argv, -, -, -, hnone⟩ := hstuck (by rw [hzero]; decide)
    exact Option.some_ne_none _ hnone
  exact ⟨s, hrun, hsession⟩

end Microkernel.Core
