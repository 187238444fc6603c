import ThriftModules.Proofs.Script.Cut

/-!
# Statements scanned on their own

* `endsBlock_append_of_not_ident` : the look ahead does not go further than a word;
* `Takes.cut` : what a statement takes in, without the blanks at its end, is taken in whole at the end of a script;
* `isCut_of_mem_statements` : a statement that starts as a statement is one as a script;
* `statements_of_mem_statements` : the statements of a script without other blanks than those of ASCII are stable.
-/

namespace ThriftModules.Script

set_option autoImplicit false

/-! ## The look ahead -/

/-- Behind a text that is not blank, the look ahead sees no more than the rest of its word. -/
theorem endsBlock_append_of_not_ident {t v : Text} (ht : ∃ c ∈ t, Text.isBlank c = false)
    (hv : ∀ c ∈ v.head?, Text.isIdentChar c = false) : endsBlock (t ++ v) = endsBlock t := by
  induction t with
  | nil =>
    obtain ⟨c, hc, -⟩ := ht
    cases hc
  | cons c t ih =>
    cases hc : Text.isBlank c with
    | true =>
      obtain ⟨d, hd, hblank⟩ := ht
      have hmem : d ∈ t := (List.mem_cons.1 hd).resolve_left fun e => by rw [e, hc] at hblank; cases hblank
      rw [List.cons_append, endsBlock_cons_blank hc, endsBlock_cons_blank hc, ih ⟨d, hmem, hblank⟩]
    | false =>
      rw [List.cons_append, endsBlock_cons hc, endsBlock_cons hc, ← List.cons_append, takeWhile_append_of_head hv]

/-! ## Statements at the end of a script -/

/-- The last character of what is taken in is not blank, and a word does not go on behind it. -/
structure EndsWord (ms : List Mark) (after : Text) : Prop where
  last : ∀ m ∈ ms.getLast?, Text.isBlank m.char = false
  word : ms.getLast? = some ⟨'}', .code⟩ ∨ ∀ c ∈ after.head?, Text.isIdentChar c = false

theorem EndsWord.of_cons {m x : Mark} {ms : List Mark} {after : Text} (h : EndsWord (m :: x :: ms) after) :
    EndsWord (x :: ms) after := by
  have hlast : (m :: x :: ms).getLast? = (x :: ms).getLast? := List.getLast?_cons_cons
  exact ⟨hlast ▸ h.last, hlast ▸ h.word⟩

theorem EndsWord.endsBlock {x : Mark} {ms : List Mark} {after : Text} (h : EndsWord (x :: ms) after) :
    endsBlock ((x :: ms).map Mark.char ++ after) = endsBlock ((x :: ms).map Mark.char) := by
  obtain ⟨m, hm⟩ := Option.ne_none_iff_exists'.1 fun e => List.cons_ne_nil x ms (List.getLast?_eq_none_iff.1 e)
  have hmem := List.mem_map_of_mem (f := Mark.char) (List.mem_of_getLast? hm)
  rcases h.word with hbrace | hafter
  · obtain rfl : m = ⟨'}', .code⟩ := Option.some.inj (hm.symm.trans hbrace)
    have happend := endsBlock_append hmem (by decide) (by decide) after []
    rwa [List.append_nil] at happend
  · exact endsBlock_append_of_not_ident ⟨m.char, hmem, h.last m hm⟩ hafter

/-- What a statement takes in, up to the blanks at its end, is taken in whole at the end of a script. -/
theorem Takes.cut {d : Nat} {xs ys rest : List Mark} (h : Takes d (xs ++ ys) rest)
    (hend : EndsWord xs ((ys ++ rest).map Mark.char)) : Takes d xs [] := by
  induction xs generalizing d with
  | nil => exact .atEnd
  | cons x xs ih =>
    rw [List.cons_append] at h
    generalize hall : xs ++ ys = all at h
    cases h with
    | brace hd =>
      obtain ⟨rfl, rfl⟩ := List.append_eq_nil_iff.1 hall
      exact .brace hd rfl
    | step hm h =>
      subst hall
      cases xs with
      | nil =>
        cases hstops : x.stops d [] with
        | false => exact .step hstops .atEnd
        | true =>
          rcases Mark.stops_iff.1 hstops with hsemi | ⟨rfl, hd, -⟩
          · rw [Mark.stops_iff.2 (.inl hsemi)] at hm
            cases hm
          · exact .brace hd rfl
      | cons x' xs =>
        refine .step ?_ (ih h hend.of_cons)
        have hcongr : ∀ t, Script.endsBlock t = Script.endsBlock ((x' :: xs).map Mark.char) →
            x.stops d t = x.stops d ((x' :: xs ++ []).map Mark.char) := fun t ht => by simp [Mark.stops, ht]
        rwa [List.append_assoc, List.map_append, hcongr _ hend.of_cons.endsBlock] at hm

/-! ## The statements of a script -/

theorem trim_of_mem_statements {script t : Text} (ht : t ∈ statements script) : Text.trim t = t ∧ t ≠ [] := by
  obtain ⟨hmem, hne⟩ := List.mem_filter.1 ht
  obtain ⟨sp, -, rfl⟩ := List.mem_map.1 hmem
  exact ⟨Text.trim_trim _, by simpa using hne⟩

/-- A statement is cut off from its script with the blanks around it. -/
theorem exists_isCut_of_mem_statements {script t : Text} (ht : t ∈ statements script) :
    ∃ (a : Text) (bs rest : List Mark), IsCut (a.map (⟨·, .code⟩) ++ (marks t ++ bs)) rest ∧
      (∀ c ∈ a, Text.isBlank c = true ∧ c ∈ script) ∧ ∀ m ∈ bs, Text.isBlank m.char = true := by
  obtain ⟨sp, hsp, rfl⟩ := List.mem_map.1 (List.mem_filter.1 ht).1
  obtain ⟨ls, rfl, hls⟩ := exists_lexemes script
  obtain ⟨before, qs, rest, rfl, htext, hcut⟩ := (cuts_spans hls).exists_of_mem hsp
  have hqs : ReadsAs qs none := (readsAs_append.1 (readsAs_append.1 hls).2).1.atEnd
  obtain ⟨a, bs, hab, hmarks, ha, hbs⟩ := exists_marks_trim sp.text
  refine ⟨a, bs, marked rest, ?_, fun c hc => ⟨ha c hc, ?_⟩, hbs⟩
  · rwa [← hmarks, htext, marks_spelling hqs]
  · have hc' : c ∈ spelling qs := by
      rw [← htext, hab]
      exact List.mem_append_left _ hc
    simp [hc']

/-- A statement whose first character starts one is cut off whole where it is the script. -/
theorem isCut_of_mem_statements {script t : Text} (ht : t ∈ statements script)
    (hstarts : ∃ m ms, marks t = m :: ms ∧ m.starts = true) : IsCut (marks t) [] := by
  obtain ⟨a, bs, rest, hcut, ha, hbs⟩ := exists_isCut_of_mem_statements ht
  have htakes : Takes 0 (marks t ++ bs) rest := by
    exact hcut.takes.of_inert_append (isInert_codes fun c hc => isQuiet_of_isBlank (ha c hc).1)
  refine ⟨hstarts, htakes.cut ⟨fun m hm => ?_, ?_⟩⟩
  · have hlast : t.getLast? = some m.char := by
      rw [← map_char_marks_self t, List.getLast?_map, Option.mem_def.1 hm]
      rfl
    exact Text.isBlank_of_trim_eq_self (trim_of_mem_statements ht).1 (.inr hlast)
  · cases bs with
    | nil =>
      rw [List.append_nil] at htakes
      rcases htakes.boundary with hbrace | rfl | hsemi
      · exact .inl hbrace
      · exact .inr nofun
      · refine .inr fun c hc => ?_
        rw [List.nil_append, List.head?_map, hsemi] at hc
        cases hc
        decide
    | cons m bs =>
      refine .inr fun c hc => ?_
      cases hc
      exact Text.not_isIdentChar_of_isBlank (hbs m List.mem_cons_self)

/-- What is cut off whole is the only statement of the script that it is. -/
theorem IsCut.statements_eq {t : Text} (h : IsCut (marks t) []) (ht : Text.trim t = t ∧ t ≠ []) :
    statements t = [t] := by
  have hrun := Scanner.run_cut (s := .start) rfl rfl h
  rw [List.append_nil, map_char_marks_self] at hrun
  rw [statements, spans, hrun]
  simp [Scanner.run, Scanner.pending, ht.1, ht.2, Scanner.start]

/-- Each statement of a script whose blanks are all of ASCII is the only one of the script that it is. -/
theorem statements_of_mem_statements {script t : Text}
    (hscript : ∀ c ∈ script, Text.isBlank c = true → Text.isAsciiBlank c = true) (ht : t ∈ statements script) :
    statements t = [t] := by
  have htrim := trim_of_mem_statements ht
  refine (isCut_of_mem_statements ht ?_).statements_eq htrim
  obtain ⟨a, bs, rest, ⟨⟨m, ms, hms, hm⟩, -⟩, ha, -⟩ := exists_isCut_of_mem_statements ht
  cases a with
  | nil =>
    cases hmarks : marks t with
    | nil =>
      have hchars := map_char_marks_self t
      rw [hmarks] at hchars
      exact absurd hchars.symm htrim.2
    | cons m' ms' =>
      rw [hmarks] at hms
      cases hms
      exact ⟨m, ms', rfl, hm⟩
  | cons c a =>
    -- a blank that starts a statement is none of ASCII
    cases hms
    obtain ⟨hblank, hmem⟩ := ha c List.mem_cons_self
    have hascii := (Mark.starts_code.1 hm).2.2
    rw [hscript c hmem hblank] at hascii
    cases hascii

/-- A statement with a bracket too many, behind one that stands outside of it, cut off in a literal. -/
theorem statements_of_mem_statements_unbalanced :
    let script := ") if (a) \x7b b(']' \n) \x7d else ] = \"; // c  ".toList
    let t := "if (a) \x7b b(']' \n) \x7d else ] = \"; // c".toList
    ((∀ c ∈ script, Text.isBlank c = true → Text.isAsciiBlank c = true) ∧ t ∈ statements script) ∧
      statements t = [t] := by
  intro script t
  have hscript : ∀ c ∈ script, Text.isBlank c = true → Text.isAsciiBlank c = true := by decide +kernel
  have ht : t ∈ statements script := by decide +kernel
  exact ⟨⟨hscript, ht⟩, statements_of_mem_statements hscript ht⟩

end ThriftModules.Script
