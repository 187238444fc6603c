import ThriftModules.Proofs.Script.Cut

/-!
# Where the statements of a script stand

* `slices` : the statements of a script with their byte offsets;
* `IsBetween` : what may stand outside of them: blanks, whole comments, semicolons and closing brackets;
* `Tiles` : the characters of a script as slices with such stretches between them (`Tiles.pairwise`, `Tiles.exists_eq`);
* `Cuts.tiles` : what the scanner cuts tiles the script once it is trimmed;
* `slices_tile` : no character that stands for something is lost or in two statements.
-/

namespace ThriftModules.Script

set_option autoImplicit false

/-! ## Slices -/

def Span.trimmed (s : Span) : Span := ⟨s.start + Text.byteLength (s.text.takeWhile Text.isBlank), Text.trim s.text⟩

def trimmed (ss : List Span) : List Span := (ss.map Span.trimmed).filter (·.text ≠ [])

/-- The statements of a script, each where it stands. -/
def slices (script : Text) : List Span := trimmed (spans script)

theorem text_slices (script : Text) : (slices script).map Span.text = statements script := by
  have htrim : (spans script).map (Text.trim ·.text) = ((spans script).map Span.trimmed).map Span.text := by
    rw [List.map_map]
    rfl
  rw [slices, trimmed, statements, htrim, List.filter_map (f := Span.text)]
  rfl

theorem trimmed_cons (s : Span) (ss : List Span) :
    trimmed (s :: ss) = if Text.trim s.text = [] then trimmed ss else s.trimmed :: trimmed ss := by
  rw [trimmed, List.map_cons, List.filter_cons]
  by_cases h : Text.trim s.text = [] <;> simp [Span.trimmed, h, trimmed]

/-! ## Between slices -/

/-- Blanks, semicolons, closing brackets and comments. -/
def Lexeme.isBetween : Lexeme → Bool
  | code c => Text.isBlank c || c == ';' || isClosing c
  | literal _ => false
  | comment _ => true

/-- What may stand between slices in front of the character `next`, or at the end of the script. The blanks at its start
may be the end of a literal or a comment that a statement was cut in. -/
def IsBetween (ms : List Mark) (next : Option Char) : Prop :=
  ∃ blanks gs, ms = blanks ++ marked gs ∧ (∀ m ∈ blanks, Text.isBlank m.char = true) ∧ ReadsAs gs next ∧
    ∀ l ∈ gs, l.isBetween = true

theorem Lexeme.isBetween_of_starts {l : Lexeme} (h : l.starts = false) : l.isBetween = true := by
  cases l with
  | code c =>
    rw [isBetween]
    cases hclose : isClosing c with
    | true => exact Bool.or_true _
    | false =>
      by_cases hsemi : c = ';'
      · simp [hsemi]
      · have hblank : Text.isAsciiBlank c = true := by
          by_contra hno
          have hstarts := Mark.starts_code.2 ⟨hclose, hsemi, Bool.eq_false_iff.2 hno⟩
          rw [Lexeme.starts, hstarts] at h
          cases h
        simp [Text.isBlank_of_isAsciiBlank hblank]
  | literal t => cases h
  | comment t => rfl

/-- The characters of a script, from a byte offset on, as slices with what may stand between them. -/
inductive Tiles : Nat → List Mark → List Span → Prop
  | last {o : Nat} {gap : List Mark} (hgap : IsBetween gap none) : Tiles o gap []
  | next {o : Nat} {gap ms rest : List Mark} {ss : List Span} (hgap : IsBetween gap (ms.map Mark.char).head?)
      (hne : ms ≠ []) (htrim : Text.trim (ms.map Mark.char) = ms.map Mark.char)
      (h : Tiles (o + Text.byteLength (gap.map Mark.char) + Text.byteLength (ms.map Mark.char)) rest ss) :
      Tiles o (gap ++ (ms ++ rest)) (⟨o + Text.byteLength (gap.map Mark.char), ms.map Mark.char⟩ :: ss)

section
variable {o : Nat} {ms : List Mark} {ss : List Span}

theorem byteLength_pos {t : Text} (h : t ≠ []) : 0 < Text.byteLength t := by
  obtain ⟨c, r, rfl⟩ := List.exists_cons_of_ne_nil h
  have := c.utf8Size_pos
  rw [Text.byteLength]
  omega

theorem Tiles.pairwise (h : Tiles o ms ss) :
    (∀ s ∈ ss, o ≤ s.start) ∧ ss.Pairwise fun s t => s.start < s.stop ∧ s.stop ≤ t.start := by
  induction h with
  | last => exact ⟨List.forall_mem_nil _, .nil⟩
  | @next o gap ms rest ss _ hne _ _ ih =>
    obtain ⟨hstarts, hpairs⟩ := ih
    refine ⟨fun s hs => ?_, .cons (fun t ht => ⟨?_, hstarts t ht⟩) hpairs⟩
    · rcases List.mem_cons.1 hs with rfl | hs
      · exact Nat.le_add_right _ _
      · have := hstarts s hs
        omega
    · exact Nat.lt_add_of_pos_right (byteLength_pos fun e => hne (List.map_eq_nil_iff.1 e))

theorem Tiles.exists_eq (h : Tiles o ms ss) :
    ∀ s ∈ ss, ∃ before after,
      ms.map Mark.char = before ++ (s.text ++ after) ∧ o + Text.byteLength before = s.start := by
  induction h with
  | last => exact List.forall_mem_nil _
  | @next o gap ms rest ss _ _ _ _ ih =>
    intro s hs
    rcases List.mem_cons.1 hs with rfl | hs
    · exact ⟨gap.map Mark.char, rest.map Mark.char, by simp, rfl⟩
    · obtain ⟨before, after, hrest, hoffset⟩ := ih s hs
      refine ⟨gap.map Mark.char ++ (ms.map Mark.char ++ before), after, by simp [hrest], ?_⟩
      rw [byteLength_append, byteLength_append, ← hoffset]
      omega

end

/-! ## The slices of a script -/

/-- The blanks in front of a statement are lexemes, and the text without the blanks around it is marked with it. -/
theorem exists_marked_trim {front qs : List Lexeme} {next : Option Char} (hr : ReadsAs (front ++ qs) next)
    (hne : Text.trim (spelling qs) ≠ []) :
    ∃ lead ms blanks, marked qs = marked lead ++ (ms ++ blanks) ∧
      spelling lead = (spelling qs).takeWhile Text.isBlank ∧ (∀ l ∈ lead, l.isBetween = true) ∧
      ReadsAs (front ++ lead) (ms.map Mark.char).head? ∧ ms.map Mark.char = Text.trim (spelling qs) ∧
      ∀ m ∈ blanks, Text.isBlank m.char = true := by
  obtain ⟨ks, hks, hrest⟩ := exists_codes_of_spelling List.takeWhile_append_dropWhile.symm (readsAs_append.1 hr).2
    fun c hc => not_isQuote_of_isBlank (List.mem_takeWhile_imp hc)
  obtain ⟨y, hy, hblank⟩ := Text.exists_trimEnd (spelling ks)
  rw [← map_char_marked, List.map_eq_append_iff] at hy
  obtain ⟨ms, blanks, hms, htext, rfl⟩ := hy
  have htrim : ms.map Mark.char = Text.trim (spelling qs) := by
    rw [htext, map_char_marked, hrest]
    rfl
  refine ⟨_, ms, blanks, ?_, spelling_codes _, fun l hl => ?_, ?_, htrim, fun m hm =>
    hblank _ (List.mem_map_of_mem hm)⟩
  · rw [← hms, ← marked_append, ← hks]
  · obtain ⟨c, hc, rfl⟩ := List.mem_map.1 hl
    simp [Lexeme.isBetween, List.mem_takeWhile_imp hc]
  · obtain ⟨m, ms, rfl⟩ : ∃ m ms', ms = m :: ms' := List.exists_cons_of_ne_nil (by rintro rfl; exact hne htrim.symm)
    have hhead : (spelling ks).head? = some m.char := by
      rw [← map_char_marked, hms]
      rfl
    rw [hks, ← List.append_assoc] at hr
    have hfront := (readsAs_append.1 hr).1
    rwa [hhead, Option.some_or] at hfront

theorem isBetween_of_trim_eq_nil {qs : List Lexeme} {next : Option Char} (hr : ReadsAs qs next)
    (h : Text.trim (spelling qs) = []) : ∀ l ∈ qs, l.isBetween = true := by
  have hblank : ∀ c ∈ spelling qs, Text.isBlank c = true := by
    obtain ⟨a, b, hab, ha, hb⟩ := Text.exists_trim (spelling qs)
    rw [h, List.nil_append] at hab
    rw [hab]
    exact fun c hc => (List.mem_append.1 hc).elim (ha c) (hb c)
  have hcodes := eq_codes_of_spelling hr fun c hc => not_isQuote_of_isBlank (hblank c hc)
  rw [hcodes]
  intro l hl
  obtain ⟨c, hc, rfl⟩ := List.mem_map.1 hl
  simp [Lexeme.isBetween, hblank c hc]

/-- What is cut tiles the script once it is trimmed; `blanks` and `gs` are what stands in front of it since the last
slice. -/
theorem Cuts.tiles {o p : Nat} {ls gs : List Lexeme} {ss : List Span} {blanks : List Mark} (h : Cuts o ls ss)
    (hr : ReadsAs (gs ++ ls) none) (hblanks : ∀ m ∈ blanks, Text.isBlank m.char = true)
    (hgs : ∀ l ∈ gs, l.isBetween = true) (ho : o = p + Text.byteLength (blanks.map Mark.char ++ spelling gs)) :
    Tiles p (blanks ++ marked (gs ++ ls)) (trimmed ss) := by
  induction h generalizing p gs blanks with
  | @last o gap hgap =>
    have hbetween := List.forall_mem_append.2 ⟨hgs, fun l hl => Lexeme.isBetween_of_starts (hgap l hl)⟩
    exact .last ⟨blanks, gs ++ gap, rfl, hblanks, hr, hbetween⟩
  | @next o gap qs rest ss hgap _ h ih =>
    have hbetween := List.forall_mem_append.2 ⟨hgs, fun l hl => Lexeme.isBetween_of_starts (hgap l hl)⟩
    rw [← List.append_assoc, ← List.append_assoc] at hr
    obtain ⟨hfront, hrest⟩ := readsAs_append.1 hr
    have hqs := (readsAs_append.1 hfront).2
    rw [trimmed_cons]
    split
    · next hnil =>
      have hblank := isBetween_of_trim_eq_nil hqs hnil
      have htiles := ih (p := p) hr hblanks (List.forall_mem_append.2 ⟨hbetween, hblank⟩)
        (by simp [byteLength_append, ho]; omega)
      simpa using htiles
    · next hne =>
      obtain ⟨lead, ms, bs, hcut, hlead, hisBetween, hreads, htext, hbs⟩ := exists_marked_trim hfront hne
      have hgap' : IsBetween (blanks ++ marked (gs ++ gap ++ lead)) (ms.map Mark.char).head? :=
        ⟨blanks, _, rfl, hblanks, hreads, List.forall_mem_append.2 ⟨hbetween, hisBetween⟩⟩
      have hnil : ms ≠ [] := by
        rintro rfl
        exact hne htext.symm
      have hmarks : blanks ++ marked (gs ++ (gap ++ (qs ++ rest))) =
          (blanks ++ marked (gs ++ gap ++ lead)) ++ (ms ++ (bs ++ marked ([] ++ rest))) := by
        simp only [marked_append, hcut, List.append_assoc, List.nil_append]
      have hspan : Span.trimmed ⟨o + Text.byteLength (spelling gap), spelling qs⟩ =
          ⟨p + Text.byteLength ((blanks ++ marked (gs ++ gap ++ lead)).map Mark.char), ms.map Mark.char⟩ := by
        rw [Span.trimmed, ← hlead, htext, ho]
        simp only [List.map_append, map_char_marked, spelling_append, byteLength_append, Nat.add_assoc]
      rw [hmarks, hspan]
      refine .next hgap' hnil (by rw [htext, Text.trim_trim]) (ih hrest hbs (List.forall_mem_nil _) ?_)
      have hbytes := congrArg (fun ms => Text.byteLength (ms.map Mark.char)) hcut
      simp only [List.map_append, map_char_marked, spelling_append, byteLength_append] at hbytes ho ⊢
      simp only [ho, hbytes, spelling_nil, Text.byteLength]
      omega

/-- The statements of a script are trimmed slices of it, one behind the other, and only blanks, whole comments, semicolons
and closing brackets stand outside of them. -/
theorem slices_tile (script : Text) :
    (slices script).map Span.text = statements script ∧ Tiles 0 (marks script) (slices script) ∧
      ((slices script).Pairwise fun s t => s.start < s.stop ∧ s.stop ≤ t.start) ∧
      ∀ s ∈ slices script, ∃ before after,
        script = before ++ (s.text ++ after) ∧ Text.byteLength before = s.start := by
  have htiles : Tiles 0 (marks script) (slices script) := by
    obtain ⟨ls, rfl, hls⟩ := exists_lexemes script
    rw [marks_spelling hls]
    show Tiles 0 ([] ++ marked ([] ++ ls)) _
    exact (cuts_spans hls).tiles hls (List.forall_mem_nil _) (List.forall_mem_nil _) rfl
  refine ⟨text_slices script, htiles, htiles.pairwise.2, fun s hs => ?_⟩
  obtain ⟨before, after, htext, hoffset⟩ := htiles.exists_eq s hs
  rw [map_char_marks_self] at htext
  exact ⟨before, after, htext, by rw [← hoffset, Nat.zero_add]⟩

example : slices ") if (a) \x7b b(\"e \n) \x7d /* ; */ f ] = '; // g  ".toList =
    [⟨2, "if (a) \x7b b(\"e \n) \x7d".toList⟩, ⟨29, "f ] = '; // g".toList⟩] := by decide +kernel

end ThriftModules.Script
